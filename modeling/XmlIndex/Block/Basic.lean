import XmlIndex.Block.Entry
import XmlIndex.Document

/-! # Blocks

The value under a key is a list of blocks, each with nodes of one document:

* the number of the document, of variable length,
* one byte for the order of the entries,
* the number of entries, of variable length,
* the length of the body, four bytes,
* the body.

`Block.encode` writes a block.  `Block.scan` cuts a value into blocks without looking at the
bodies; what it finds are the blocks up to the first fault, and that fault.  A value may end
between two blocks and nowhere else.  `Block.entries` decodes a body and holds it against the
header. -/

namespace XmlIndex

/-- Whether the entries of a block stand in document order. -/
inductive BlockOrder where
  | ordered
  | unordered
  deriving DecidableEq, Inhabited

namespace BlockOrder

/-- The name of an order. -/
def name : BlockOrder → String
  | ordered => "Ordered"
  | unordered => "Unordered"

/-- The code of an order. -/
def toByte : BlockOrder → UInt8
  | ordered => 0
  | unordered => 1

/-- The order with that code. -/
def ofByte (code : UInt8) : Except Error BlockOrder :=
  if code = 0 then .ok ordered
  else if code = 1 then .ok unordered
  else .error (.badBlockOrder code)

/-- Whether the entries stand in document order. -/
def isOrdered : BlockOrder → Bool
  | ordered => true
  | unordered => false

theorem ofByte_toByte (o : BlockOrder) : ofByte o.toByte = .ok o := by
  cases o <;> rfl

end BlockOrder

/-- A block as it is stored: its header, its body, and all its bytes. -/
structure Block where
  doc : DocId
  order : BlockOrder
  count : UInt32
  byteLength : UInt32
  raw : Bytes
  body : Bytes
  deriving DecidableEq, Inhabited

/-- The blocks of a value up to its first fault, and the fault. -/
structure Framing where
  blocks : List Block
  fault? : Option Error
  deriving DecidableEq, Inhabited

namespace Block

/-! ## Writing -/

/-- The bytes of a block header. -/
def encodeHeader (doc : DocId) (order : BlockOrder) (count byteLength : Nat) : Bytes :=
  Varint.encode doc ++ [order.toByte] ++ Varint.encode (UInt32.ofNat count) ++
    Bytes.littleEndian 4 byteLength

/-- The bytes of a block. -/
def encode (doc : DocId) (order : BlockOrder) (entries : List Entry) : Bytes :=
  let body := Entry.encodeBody entries
  encodeHeader doc order entries.length body.length ++ body

/-! ## Reading -/

/-- Reads one block.  Its bytes are those between the positions before and after. -/
def read : Input.Reads Block := do
  let start ← get
  let doc ← Input.varint
  -- An unknown order ends the reading, so its block is not passed over.
  let order ← Action.ofExcept (BlockOrder.ofByte (← Input.byte))
  let count ← Input.varint
  let byteLength ← Input.fixed32
  let body ← Input.raw byteLength.toNat
  let finish ← get
  return { doc, order, count, byteLength, body,
           raw := start.rest.take (finish.pos - start.pos) }

theorem read_left {i i' : Input} {b : Block} (h : read i = .ok b i') : i'.left < i.left := by
  -- The reader's steps one by one; asking for the position reads nothing.
  obtain ⟨start, i₀, hs, h⟩ := Action.bind_eq_ok_iff.mp h
  obtain ⟨_, rfl⟩ := EStateM.Result.ok.inj hs
  obtain ⟨doc, i₁, hd, h⟩ := Action.bind_eq_ok_iff.mp h
  obtain ⟨code, i₂, hb, h⟩ := Action.bind_eq_ok_iff.mp h
  obtain ⟨order, i₃, ho, h⟩ := Action.bind_eq_ok_iff.mp h
  obtain ⟨count, i₄, hc, h⟩ := Action.bind_eq_ok_iff.mp h
  obtain ⟨length, i₅, hl, h⟩ := Action.bind_eq_ok_iff.mp h
  obtain ⟨body, i₆, hr, h⟩ := Action.bind_eq_ok_iff.mp h
  obtain ⟨finish, i₇, hf, h⟩ := Action.bind_eq_ok_iff.mp h
  obtain ⟨_, rfl⟩ := EStateM.Result.ok.inj hf
  obtain ⟨_, rfl⟩ := EStateM.Result.ok.inj h
  -- The code of the order is checked without reading further.
  have h₁ := Input.varint_left hd
  have h₂ := Input.byte_left hb
  have h₃ : i₃ = i₂ := by
    cases hx : BlockOrder.ofByte code with
    | ok o =>
      rw [hx] at ho
      exact (EStateM.Result.ok.inj ho).2.symm
    | error e =>
      rw [hx] at ho
      cases ho
  have h₄ := Input.varint_left hc
  have h₅ := Input.fixed32_left hl
  have h₆ := Input.raw_left hr
  subst h₃
  omega

/-- Cuts the rest of the input into blocks. -/
def scanFrom (i : Input) : Framing :=
  if i.left = 0 then ⟨[], none⟩
  else
    match _h : read i with
    -- Behind a fault no block can be found.
    | .error e _ => ⟨[], some e⟩
    | .ok block i' =>
      let framing := scanFrom i'
      { framing with blocks := block :: framing.blocks }
termination_by i.left
decreasing_by exact read_left _h

/-- The blocks of a value. -/
def scan (value : Bytes) : Framing := scanFrom (.ofBytes value)

/-- The entries of a block.  Its body has to hold the declared number of entries and nothing
behind the closing mark; a count above the length of the body is refused before reading. -/
def entries (b : Block) : Except Error (List Entry) :=
  if b.body.length < b.count.toNat then .error (.blockOverfull b.doc b.count b.body.length)
  else
    match Entry.readAll (.ofBytes b.body) with
    | .error e _ => .error e
    | .ok entries i =>
      if entries.length ≠ b.count.toNat then
        .error (.blockMiscounted b.doc b.count entries.length)
      else if i.left ≠ 0 then .error (.blockStray b.doc i.left)
      else .ok entries

end Block

namespace Framing

/-- The blocks, if the value has no fault. -/
def toExcept (f : Framing) : Except Error (List Block) :=
  match f.fault? with
  | none => .ok f.blocks
  | some e => .error e

/-- Goes through the blocks with `visit` and then fails with the fault of the value, if it has
one. -/
def fold {β : Type} (f : Framing) (visit : β → Block → Except Error β) (start : β) :
    Except Error β := do
  -- The blocks in front of a fault are visited before it counts.
  let result ← f.blocks.foldlM visit start
  match f.fault? with
  | none => .ok result
  | some e => .error e

end Framing

end XmlIndex
