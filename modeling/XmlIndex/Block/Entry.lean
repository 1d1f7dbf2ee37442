import XmlIndex.Address
import XmlIndex.NodeId.Codec

/-! # Block entries

The body of a block is a list of entries, each a node id and the address of the node in
eight bytes, closed by the end of the document.

`encodeBody` writes a body, `readAll` reads one up to and with its closing mark. -/

namespace XmlIndex

/-- A stored node: its id and where it is kept. -/
structure Entry where
  node : NodeId
  address : Address
  deriving DecidableEq, Inhabited

namespace Entry

/-- The bytes of an entry. -/
def encode (e : Entry) : Bytes :=
  e.node.encode ++ Bytes.littleEndian 8 e.address.word.toNat

/-- The bytes of a body. -/
def encodeBody (es : List Entry) : Bytes :=
  es.flatMap encode ++ NodeId.encodeEnd

/-- Reads an entry, or the closing mark. -/
def read? : Input.Reads (Option Entry) := do
  let node ← NodeId.read
  -- The closing mark has no address behind it.
  if node.isEnd then return none
  let word ← Input.fixed64
  return some ⟨node, ⟨word⟩⟩

theorem read?_left {i i' : Input} {e : Option Entry} (h : read? i = .ok e i') :
    i'.left < i.left := by
  obtain ⟨node, i₁, hn, h⟩ := Action.bind_eq_ok_iff.mp h
  have := NodeId.read_left hn
  -- The closing mark is a node id without levels, and nothing is read behind it.
  by_cases hz : node.isEnd
  · simp only [hz, if_true] at h
    obtain ⟨_, rfl⟩ := EStateM.Result.ok.inj h
    exact this
  · simp only [hz] at h
    obtain ⟨word, i₂, hw, h⟩ := Action.bind_eq_ok_iff.mp h
    obtain ⟨_, rfl⟩ := EStateM.Result.ok.inj h
    have := Input.fixed64_left hw
    omega

/-- Reads entries up to and with the closing mark. -/
def readAll (i : Input) : EStateM.Result Error Input (List Entry) :=
  match _h : read? i with
  | .error e i' => .error e i'
  | .ok none i' => .ok [] i'
  | .ok (some entry) i' =>
    match readAll i' with
    | .error e i'' => .error e i''
    | .ok entries i'' => .ok (entry :: entries) i''
termination_by i.left
decreasing_by exact read?_left _h

/-! ## Order -/

/-- The entries in the order of their node ids; entries with one id keep their order. -/
def sort (es : List Entry) : List Entry :=
  es.mergeSort fun a b => (compare a.node b.node).isLE

/-- The entries behind one with the node id `last` that do not repeat the id before them. -/
def dropRepeatsFrom (last : NodeId) : List Entry → List Entry
  | [] => []
  | e :: es => if e.node = last then dropRepeatsFrom last es else e :: dropRepeatsFrom e.node es

/-- The entries without those that repeat the id of the one before them. -/
def dropRepeats : List Entry → List Entry
  | [] => []
  | e :: es => e :: dropRepeatsFrom e.node es

/-- The entries in document order, each id once with its first entry. -/
def arrange (es : List Entry) : List Entry := dropRepeats (sort es)

end Entry

end XmlIndex
