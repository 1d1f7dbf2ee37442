import XmlIndex.Axis
import XmlIndex.Block.Cursor
import XmlIndex.Index.Lookup

/-! # Structural joins

`join` answers the stored nodes of a name that stand on an axis of some node of a context.
The nodes of the context, the ancestors, are taken document by document in document order;
so are the entries of a block, once an unordered one has been put in order.  A block is then
joined in one sweep over both.

The sweep stands at an entry and an ancestor.  While the entry is at or below the ancestor it
is a candidate, and the sweep goes on to the next entry.  Once the entry lies behind
everything below the ancestor, the sweep goes on to the next ancestor.  If that is nested in
the one before, the entries below it have been passed already, and the sweep goes back to the
remembered entry, which is the first one that the outermost ancestor in play could have.  The
same happens at the end of the block: only a nested ancestor can have entries still. -/

namespace XmlIndex

/-- What a join looks for in a block: nodes of one document and one type on an axis, and the
number under which a result remembers the ancestor it was reached from, if it is to. -/
structure JoinStep where
  doc : DocId
  type : NodeType
  axis : Axis
  contextId? : Option UInt32

namespace JoinStep

/-- The result for an entry that stands on the axis of an ancestor. -/
def result (j : JoinStep) (entry : Entry) (ancestor : NodeRef) : NodeRef :=
  let r : NodeRef :=
    { doc := j.doc, node := entry.node, address := entry.address, type? := some j.type }
  match j.contextId? with
  | none => r.inherit ancestor
  | some contextId => r.inheritAs ancestor contextId

end JoinStep

/-- A sweep over a block and the ancestors of its document: the cursor on the block, the
ancestor it stands at, those behind it, the outermost ancestor in play, and the results. -/
structure Sweep where
  cursor : Cursor
  ancestor : NodeRef
  later : List NodeRef
  window : NodeRef
  found : NodeSet

namespace Sweep

/-- What comes of a step: the sweep goes on, or it has come to its end. -/
inductive Turn where
  | more (s : Sweep)
  | done (found : NodeSet)

/-- The sweep at the next ancestor, back at the remembered entry. -/
def rewindTo (s : Sweep) (next : NodeRef) (later : List NodeRef) : Except Error Turn :=
  match Cursor.reset s.cursor with
  | .ok () cursor => .ok (.more { s with cursor, ancestor := next, later })
  | .error e _ => .error e

/-- Goes on to the next entry, and from the last one to an ancestor nested in this one. -/
def nextEntry (s : Sweep) : Except Error Turn :=
  match Cursor.advance s.cursor with
  | .error e _ => .error e
  | .ok (some _) cursor => .ok (.more { s with cursor })
  | .ok none cursor =>
    match s.later with
    | [] => .ok (.done s.found)
    | next :: later =>
      -- A nested ancestor may have entries among those already passed.
      if next.node.isDescendantOf s.ancestor.node then { s with cursor }.rewindTo next later
      else .ok (.done s.found)

/-- Goes on to the next ancestor. -/
def nextAncestor (s : Sweep) : Except Error Turn :=
  match s.later with
  | [] => .ok (.done s.found)
  | next :: later =>
    if next.node.isDescendantOf s.ancestor.node then s.rewindTo next later
    -- Still below the outermost ancestor in play: its first entry stays remembered.
    else if next.node.isDescendantOf s.window.node then
      .ok (.more { s with ancestor := next, later })
    else
      -- No entry in front of this one lies below `next` or below an ancestor behind it.
      .ok (.more { s with cursor := s.cursor.mark, ancestor := next, later, window := next })

/-- One step of the sweep. -/
def step (j : JoinStep) (s : Sweep) : Except Error Turn :=
  match s.cursor.current? with
  | none => .ok (.done s.found)
  | some entry =>
    match entry.node.relationTo? s.ancestor.node with
    | some relation =>
      let found :=
        if j.axis.accepts relation then s.found.add (j.result entry s.ancestor) else s.found
      { s with found }.nextEntry
    | none =>
      -- The entry is not below the ancestor: it stands behind its subtree or in front of it.
      if (compare s.ancestor.node entry.node).isLT then s.nextAncestor else s.nextEntry

/-! ## A sweep comes to its end -/

/-- The number of ancestors still to come, and of bytes of the block before the next of them. -/
def remaining (s : Sweep) : Nat × Nat := (s.later.length, s.cursor.left)

/-- Less remains in `s'` than in `s`. -/
def Before (s' s : Sweep) : Prop :=
  Prod.Lex (· < ·) (· < ·) s'.remaining s.remaining

theorem rewindTo_before {s s' t : Sweep} {next : NodeRef} {later : List NodeRef}
    (hl : later.length < t.later.length) (h : s.rewindTo next later = .ok (.more s')) :
    s'.Before t := by
  simp only [rewindTo] at h
  split at h
  · obtain rfl := Turn.more.inj (Except.ok.inj h)
    exact .left _ _ hl
  · cases h

theorem nextEntry_before {s s' : Sweep} (h : s.nextEntry = .ok (.more s')) : s'.Before s := by
  simp only [nextEntry] at h
  split at h
  · cases h
  -- The cursor has moved on within the body.
  · next ha =>
    obtain rfl := Turn.more.inj (Except.ok.inj h)
    exact .right _ (Cursor.advance_left ha)
  · split at h
    · cases h
    -- At the end of the body the sweep goes back only for a further ancestor.
    · next hl =>
      split at h
      · exact rewindTo_before (by simp [hl]) h
      · cases h

theorem nextAncestor_before {s s' : Sweep} (h : s.nextAncestor = .ok (.more s')) :
    s'.Before s := by
  simp only [nextAncestor] at h
  split at h
  · cases h
  -- Wherever the cursor is put, there is one ancestor fewer.
  · next hl =>
    split at h
    · exact rewindTo_before (by simp [hl]) h
    · split at h <;>
      · obtain rfl := Turn.more.inj (Except.ok.inj h)
        exact .left _ _ (by simp [hl])

/-- A step leaves fewer ancestors, or as many and fewer bytes. -/
theorem step_before {j : JoinStep} {s s' : Sweep} (h : s.step j = .ok (.more s')) :
    s'.Before s := by
  simp only [step] at h
  split at h
  · cases h
  · split at h
    · have := nextEntry_before h
      exact this
    · split at h
      · exact nextAncestor_before h
      · exact nextEntry_before h

/-- The results of a sweep. -/
def run (j : JoinStep) (s : Sweep) : Except Error NodeSet :=
  match _h : s.step j with
  | .error e => .error e
  | .ok (.done found) => .ok found
  | .ok (.more s') => run j s'
termination_by s.remaining
decreasing_by exact step_before _h

end Sweep

namespace Block

/-- A cursor on the entries of a block in document order.  An ordered block is read as it
stands; an unordered one is decoded as a whole and put in order. -/
def orderedCursor (b : Block) : Except Error Cursor :=
  match b.order with
  | .ordered => Cursor.ofBody b.body
  | .unordered => do
    let entries ← b.entries
    Cursor.ofBody (Entry.encodeBody (Entry.arrange entries))

end Block

namespace JoinStep

/-- The results with those from a block of the document; the ancestors come in document
order. -/
def joinBlock (j : JoinStep) (ancestors : List NodeRef) (found : NodeSet) (block : Block) :
    Except Error NodeSet :=
  match ancestors with
  | [] => .ok found
  | first :: later => do
    let cursor ← block.orderedCursor
    Sweep.run j { cursor := cursor.mark, ancestor := first, later, window := first, found }

end JoinStep

namespace Findings

/-- The findings with the results of one block.  Blocks of other documents, and of documents
without a node in the context, are passed over undecoded. -/
def joinBlock (kind : NameKind) (axis : Axis) (docs : DocumentSet) (context : NodeSet)
    (contextId? : Option UInt32) (f : Findings) (block : Block) : Except Error Findings :=
  match docs.get? block.doc with
  | none => .ok f
  | some document => do
    let j : JoinStep := { doc := document.id, type := kind.nodeType, axis, contextId? }
    let nodes ← j.joinBlock (context.sortedNodes document.id) f.nodes block
    .ok { f with nodes }

end Findings

namespace Index

/-- The stored nodes of a name that stand on the axis of a node of the context, in document
order. -/
def join (kind : NameKind) (axis : Axis) (docs : DocumentSet) (name : QName) (context : NodeSet)
    (contextId? : Option UInt32) : Action Index NodeSet := do
  let visit := Findings.joinBlock kind axis docs context contextId?
  let f ← visitValues kind name visit docs.collections {}
  return { f with nodes := f.nodes.sort }.answer docs

end Index

end XmlIndex
