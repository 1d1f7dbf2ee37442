import XmlIndex.Block.Basic
import XmlIndex.Index.Entries

/-! # Statistics

The size of a collection's part of the index: keys, blocks, nodes and bytes.  The nodes are
counted by the headers of the blocks. -/

namespace XmlIndex

/-- The size of a collection's part of the index. -/
structure Statistics where
  collection : CollectionId
  keys : Nat := 0
  blocks : Nat := 0
  unorderedBlocks : Nat := 0
  nodes : Nat := 0
  valueBytes : Nat := 0
  deriving DecidableEq, Inhabited

namespace Statistics

/-- The size with one more block. -/
def addBlock (s : Statistics) (block : Block) : Statistics :=
  { s with
    blocks := s.blocks + 1
    unorderedBlocks := if block.order.isOrdered then s.unorderedBlocks else s.unorderedBlocks + 1
    nodes := s.nodes + block.count.toNat }

/-- The size with one more key and the value under it. -/
def addValue (s : Statistics) (value : Bytes) : Except Error Statistics :=
  (Block.scan value).fold (fun s block => .ok (s.addBlock block))
    { s with keys := s.keys + 1, valueBytes := s.valueBytes + value.length }

/-- The average number of nodes in a block; zero if there is no block. -/
def averageNodes (s : Statistics) : Float :=
  if s.blocks = 0 then 0 else Float.ofNat s.nodes / Float.ofNat s.blocks

end Statistics

namespace Index

/-- The size of a collection's part of the index. -/
def statistics (collection : CollectionId) : Action Index Statistics :=
  onStore <| Store.locked .read do
    let entries ← entriesOf collection
    Action.ofExcept (entries.foldlM (fun s e => s.addValue e.2) { collection })

end Index

end XmlIndex
