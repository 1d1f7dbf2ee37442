import XmlIndex.Index.Basic
import XmlIndex.NodeSet
import XmlIndex.Progress

/-! # Writing to the index

`flush` writes a batch: each name, in order, as one block at the end of the value under its
key.  A name leaves the batch with its block; when a name fails, it and all names behind it
are still in the batch, so the flush can be repeated.

A key holds at most one ordered block of a document, so a first load fails when there is a
block of the document under the key already.

`removeNodes` takes nodes of one name out of a document.  The blocks of other documents are
kept byte for byte, in front; those of the document are merged into one ordered block, or
vanish with their last node. -/

namespace XmlIndex

/-- What a flush has written. -/
structure FlushSummary where
  names : Nat := 0
  nodes : Nat := 0
  deriving DecidableEq, Inhabited

/-- A flush at work: the index, what is still waiting, how far it has come, what it has
written and the reports it has made. -/
structure Flushing where
  index : Index
  batch : Batch
  progress : Progress
  summary : FlushSummary := {}
  reports : List Progress := []

namespace NodeRef

/-- The entry of a block for a node. -/
def toEntry (r : NodeRef) : Entry := ⟨r.node, r.address⟩

end NodeRef

namespace Framing

/-- Fails if a block of the document comes before the end or fault of the value. -/
def requireNoBlockOf (f : Framing) (doc : DocId) (key : Key) : Except Error Unit :=
  f.fold (fun _ b => if b.doc = doc then .error (.alreadyIndexed doc key.toText) else .ok ()) ()

/-- The bytes of the blocks of other documents, and the entries of the document's own blocks
that are not to be removed. -/
def split (f : Framing) (doc : DocId) (removed : List NodeId) :
    Except Error (Bytes × List Entry) :=
  f.fold (fun (others, survivors) b =>
    if b.doc = doc then
      -- Only the document's own blocks are decoded.
      b.entries.map fun es => (others, survivors ++ es.filter fun e => !removed.contains e.node)
    else .ok (others ++ b.raw, survivors)) ([], [])

end Framing

namespace Index

/-! ## Flushing -/

/-- Adds a block to the value under a key.  For an ordered block the document must not have a
block there. -/
def appendBlock (key : Key) (doc : DocId) (order : BlockOrder) (block : Bytes) :
    Action Store Unit :=
  Store.locked .write do
    -- An unordered block may stand beside any others.
    if order.isOrdered then
      match ← Store.get key.toBytes with
      | none => pure ()
      | some slot => Action.ofExcept ((Block.scan slot.data).requireNoBlockOf doc key)
    let _ ← Store.append .write key.toBytes block

/-- Writes the nodes of one name, the `done`-th of the batch.  If that fails, they go back to
the batch, in document order. -/
def flushNodes (name : QName) (key : Key) (nodes : List NodeRef) (done : Nat) :
    Action Flushing Unit := fun f =>
  let sorted := NodeRef.sort nodes
  -- The name leaves the batch first, and comes back if its block cannot be written.
  let batch := f.batch.drop name
  let doc := batch.document.id
  let block := Block.encode doc batch.order (sorted.map NodeRef.toEntry)
  match onStore (appendBlock key doc batch.order block) f.index with
  | .error e index => .error e { f with index, batch := batch.restore name sorted }
  | .ok () index =>
    let summary := ⟨f.summary.names + 1, f.summary.nodes + sorted.length⟩
    -- Only a step that is completed is reported.
    let (report, progress) := (f.progress.setValue done).changed
    let reports := if report then f.reports ++ [progress] else f.reports
    .ok () { index, batch, progress, summary, reports }

/-- Writes one name of the batch, the `done`-th. -/
def flushName (name : QName) (done : Nat) : Action Flushing Unit := do
  let collection := (← get).batch.document.collection
  -- The key is formed before the name leaves the batch.
  let key ← Action.on (·.index) (fun index f => { f with index })
    (keyOf name.kind collection name)
  match (← get).batch.nodes? name with
  | none => pure ()
  | some nodes => flushNodes name key nodes done

/-- Writes names in order, the first of them as the `done`-th. -/
def flushNames : (names : List QName) → (done : Nat) → Action Flushing Unit
  | [], _ => pure ()
  | name :: names, done => do
    flushName name done
    flushNames names (done + 1)

/-- Writes all names of a batch.  An empty batch is written without a report; any other ends
with the report that it is finished. -/
def flush : Action Flushing FlushSummary := do
  let f ← get
  if f.batch.isEmpty then return {}
  let names := f.batch.names
  -- What is counted are the names.
  set { f with progress := Progress.start names.length f.index.progressStep }
  flushNames names 1
  modify fun f =>
    let progress := f.progress.finish
    { f with progress, reports := f.reports ++ [progress] }
  return (← get).summary

/-- The start of a flush. -/
def flushing (index : Index) (batch : Batch) : Flushing :=
  { index, batch, progress := Progress.start 0 index.progressStep }

/-! ## Removing -/

/-- The value without the removed nodes of a document. -/
def withoutNodes (doc : DocId) (removed : List NodeId) (value : Bytes) : Except Error Bytes := do
  let (others, survivors) ← (Block.scan value).split doc removed
  -- A document without a node left has no block at all.
  if survivors.isEmpty then .ok others
  else .ok (others ++ Block.encode doc .ordered (Entry.arrange survivors))

/-- Removes nodes of one name from a document.  The value is written even if it is empty. -/
def removeNodes (document : Document) (name : QName) (removed : List NodeId) :
    Action Index Unit := do
  let key ← keyOf name.kind document.collection name
  onStore <| Store.locked .write do
    match ← Store.get key.toBytes with
    -- A key without a value gets an empty one.
    | none =>
      let _ ← Store.put .write key.toBytes []
    | some slot =>
      let value ← Action.ofExcept (withoutNodes document.id removed slot.data)
      let _ ← Store.update .write slot.address key.toBytes value

/-- Removes the nodes of these names, one name after the other.  When a name fails, it and all
names behind it are still in the batch. -/
def removeNames : List QName → Action (Index × Batch) Unit
  | [] => pure ()
  | name :: names => fun (index, batch) =>
    match batch.nodes? name with
    | none => removeNames names (index, batch)
    | some nodes =>
      match removeNodes batch.document name (nodes.map (·.node)) index with
      | .error e index => .error e (index, batch)
      | .ok () index => removeNames names (index, batch.drop name)

/-- Removes all nodes of a batch from the index, and leaves the batch empty. -/
def removeBatch : Action (Index × Batch) Unit := do
  let (_, batch) ← get
  removeNames batch.names
  modify fun (index, batch) => (index, batch.discard)

end Index

end XmlIndex
