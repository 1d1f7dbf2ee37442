import XmlIndex.Block.Basic
import XmlIndex.Proofs.ActionSteps
import XmlIndex.Proofs.EntryReading

/-! # Values as lists of blocks

A block is well framed if it is read from its own bytes (`Block.WellFramed`).  A value has no
fault exactly if it is the concatenation of well-framed blocks, and the scan finds these:
`Block.scan_eq_iff`.  All that is done to values, putting a block behind them or keeping some
of their blocks, is therefore done to lists of blocks.  What goes for one block comes from the
readers of its parts, put together in `Block.readParts`.

`Block.ofEntries` is the block that is written for a list of entries.  It is well framed and
decodes to these entries as long as its body fits the length field. -/

namespace XmlIndex

open Input

namespace Block

/-! ## One block -/

/-- The block is read from its own bytes. -/
def WellFramed (b : Block) : Prop := Takes read b.raw b

/-- Reads what a block is made of, without its bytes. -/
def readParts : Reads Block := do
  let doc ← varint
  let order ← Action.ofExcept (BlockOrder.ofByte (← byte))
  let count ← varint
  let byteLength ← fixed32
  let body ← Input.raw byteLength.toNat
  return { doc, order, count, byteLength, body, raw := [] }

/-- A block has the bytes between the positions before and after its parts. -/
theorem read_eq : read = (do
    let start ← get
    let b ← readParts
    let finish ← get
    return { b with raw := start.rest.take (finish.pos - start.pos) }) := by
  simp only [read, readParts, bind_assoc, pure_bind]

/-- A block is read if its parts are, and has the bytes that these moved over. -/
theorem read_eq_ok_iff {i i' : Input} {b : Block} : read i = .ok b i' ↔
    ∃ parts, readParts i = .ok parts i' ∧
      b = { parts with raw := i.rest.take (i'.pos - i.pos) } := by
  rw [read_eq, Action.get_bind, Action.bind_eq_ok_iff]
  constructor
  · rintro ⟨parts, i₁, hparts, h⟩
    rw [Action.get_bind] at h
    obtain ⟨rfl, rfl⟩ := EStateM.Result.ok.inj h
    exact ⟨parts, hparts, rfl⟩
  · rintro ⟨parts, hparts, rfl⟩
    exact ⟨parts, i', hparts, rfl⟩

/-- Reading a block fails as reading its parts does. -/
theorem read_eq_error_iff {i i' : Input} {e : Error} :
    read i = .error e i' ↔ readParts i = .error e i' := by
  rw [read_eq, Action.get_bind, Action.bind_eq_error_iff]
  constructor
  · rintro (h | ⟨parts, i₁, -, h⟩)
    · exact h
    · cases h
  · exact .inl

/-- The bytes that were taken stand between the positions before and after. -/
theorem take_pos_sub_pos {i i' : Input} {bs : Bytes} (hr : i.rest = bs ++ i'.rest)
    (hd : i'.data = i.data) : i.rest.take (i'.pos - i.pos) = bs := by
  rw [pos_of_rest hd hr, Nat.add_sub_cancel_left, hr, List.take_left]

/-- What the parts of a block take is what the block takes. -/
theorem takes_read_of_parts {bs : Bytes} {parts : Block} (h : Takes readParts bs parts) :
    Takes read bs { parts with raw := bs } := by
  intro i rest hr
  obtain ⟨i', hparts, hd, rfl⟩ := h i rest hr
  refine ⟨i', read_eq_ok_iff.mpr ⟨parts, hparts, ?_⟩, hd, rfl⟩
  rw [take_pos_sub_pos hr hd]

/-- Segments for the parts of a block, put together, are taken for the block. -/
theorem takes_read {ds os cs ls body : Bytes} {doc count byteLength : UInt32} {code : UInt8}
    {order : BlockOrder} (hd : Takes varint ds doc) (hb : Takes byte os code)
    (ho : BlockOrder.ofByte code = .ok order) (hc : Takes varint cs count)
    (hl : Takes fixed32 ls byteLength) (hlen : body.length = byteLength.toNat) :
    Takes read (ds ++ (os ++ (cs ++ (ls ++ body))))
      { doc, order, count, byteLength, raw := ds ++ (os ++ (cs ++ (ls ++ body))), body } := by
  have hbody : Takes (Input.raw byteLength.toNat) body body := hlen ▸ takes_raw body
  exact takes_read_of_parts <| hd.bind <| hb.bind <| (takes_ofExcept ho).bind <| hc.bind <|
    hl.bind <| hbody.bind_pure fun body =>
      ({ doc, order, count, byteLength, body, raw := [] } : Block)

/-- The parts of a block come from the bytes that they are read from. -/
theorem isLocal_readParts : IsLocal readParts :=
  isLocal_varint.bind fun _ => isLocal_byte.bind fun _ => (isLocal_ofExcept _).bind fun _ =>
    isLocal_varint.bind fun _ => isLocal_fixed32.bind fun _ => (isLocal_raw _).bind fun _ =>
      .pure _

/-- What is read as a block is read from its own bytes, and these are the next ones. -/
theorem read_eq_ok {i i' : Input} {b : Block} (hread : read i = .ok b i') :
    b.WellFramed ∧ i.rest = b.raw ++ i'.rest ∧ i'.data = i.data := by
  obtain ⟨parts, hparts, rfl⟩ := read_eq_ok_iff.mp hread
  obtain ⟨bs, hr, hd, htakes⟩ := isLocal_readParts _ _ _ hparts
  have hraw := take_pos_sub_pos hr hd
  rw [hraw]
  exact ⟨takes_read_of_parts htakes, hr, hd⟩

/-- A block comes from the bytes that it is read from. -/
theorem isLocal_read : IsLocal read := by
  intro i b i' h
  obtain ⟨hwell, hr, hd⟩ := read_eq_ok h
  exact ⟨b.raw, hr, hd, hwell⟩

/-! ## Values -/

/-- The value made of these blocks. -/
def valueOf (bs : List Block) : Bytes := bs.flatMap (·.raw)

/-- No blocks make up the empty value. -/
@[simp] theorem valueOf_nil : valueOf [] = [] := rfl

/-- The bytes of the first block stand in front of the others. -/
@[simp] theorem valueOf_cons (b : Block) (bs : List Block) :
    valueOf (b :: bs) = b.raw ++ valueOf bs := List.flatMap_cons

/-- Blocks are put behind one another byte by byte. -/
@[simp] theorem valueOf_append (bs cs : List Block) :
    valueOf (bs ++ cs) = valueOf bs ++ valueOf cs := List.flatMap_append

/-- At the end of the value a scan finds nothing more. -/
theorem scanFrom_of_left_eq_zero {i : Input} (h : i.left = 0) : scanFrom i = ⟨[], none⟩ := by
  rw [scanFrom, if_pos h]

/-- A block that can be read is found, and the scan goes on behind it. -/
theorem scanFrom_of_read {i i' : Input} {b : Block} (h : read i = .ok b i') :
    scanFrom i = { scanFrom i' with blocks := b :: (scanFrom i').blocks } := by
  -- A block takes bytes, so the input was not at its end.
  have hread := read_left h
  rw [scanFrom, if_neg (by omega)]
  split
  · next h' =>
    rw [h] at h'
    cases h'
  · next h' =>
    obtain ⟨rfl, rfl⟩ := EStateM.Result.ok.inj (h.symm.trans h')
    rfl

/-- A block that cannot be read is the end of the scan and its fault. -/
theorem scanFrom_of_error {i i' : Input} {e : Error} (hleft : i.left ≠ 0)
    (h : read i = .error e i') : scanFrom i = ⟨[], some e⟩ := by
  rw [scanFrom, if_neg hleft]
  split
  · next h' =>
    obtain ⟨rfl, rfl⟩ := EStateM.Result.error.inj (h.symm.trans h')
    rfl
  · next h' =>
    rw [h] at h'
    cases h'

/-- Well-framed blocks are found, and then what stands behind them. -/
theorem exists_scanFrom_append {i : Input} {bs : List Block} {rest : Bytes}
    (hr : i.rest = valueOf bs ++ rest) (hw : ∀ b ∈ bs, b.WellFramed) :
    ∃ j : Input, j.data = i.data ∧ j.rest = rest ∧
      scanFrom i = ⟨bs ++ (scanFrom j).blocks, (scanFrom j).fault?⟩ := by
  -- Each block is read where the one before it ends.
  induction bs generalizing i with
  | nil => exact ⟨i, rfl, hr, rfl⟩
  | cons b bs ih =>
    obtain ⟨hb, hbs⟩ := List.forall_mem_cons.mp hw
    rw [valueOf_cons, List.append_assoc] at hr
    obtain ⟨i', hread, hd, hr'⟩ := hb i _ hr
    obtain ⟨j, hd', hrest, hscan⟩ := ih hr' hbs
    exact ⟨j, hd'.trans hd, hrest, by rw [scanFrom_of_read hread, hscan, List.cons_append]⟩

/-- A scan finds certain blocks and no fault exactly if these are well framed and nothing else is
there. -/
theorem scanFrom_eq_iff {i : Input} {bs : List Block} :
    scanFrom i = ⟨bs, none⟩ ↔ i.rest = valueOf bs ∧ ∀ b ∈ bs, b.WellFramed := by
  -- Induction on the blocks: a step of the scan reads one block.
  induction bs generalizing i with
  | nil =>
    simp only [valueOf_nil, List.not_mem_nil, false_implies, implies_true, and_true]
    constructor
    · intro h
      rw [scanFrom] at h
      split at h
      -- A scan that finds nothing and no fault had no bytes.
      · next hl => exact List.length_eq_zero_iff.mp hl
      · split at h
        · cases (Framing.mk.inj h).2
        · cases (Framing.mk.inj h).1
    · exact fun h => scanFrom_of_left_eq_zero (List.length_eq_zero_iff.mpr h)
  | cons b bs ih =>
    rw [valueOf_cons, List.forall_mem_cons]
    constructor
    · intro h
      rw [scanFrom] at h
      split at h
      · cases (Framing.mk.inj h).1
      · split at h
        · cases (Framing.mk.inj h).1
        · next i' hread =>
          obtain ⟨hb, hf⟩ := Framing.mk.inj h
          obtain ⟨rfl, hbs⟩ := List.cons.inj hb
          obtain ⟨hw, hr, _⟩ := read_eq_ok hread
          obtain ⟨hr', hall⟩ := ih.mp (by rw [← hbs, ← hf])
          exact ⟨by rw [hr, hr'], hw, hall⟩
    -- Conversely the first block is read from its own bytes, whatever follows.
    · rintro ⟨hr, hw, hall⟩
      obtain ⟨i', hread, _, hr'⟩ := hw i _ hr
      rw [scanFrom_of_read hread, ih.mpr ⟨hr', hall⟩]

/-- The values without a fault are the concatenations of well-framed blocks. -/
theorem scan_eq_iff {value : Bytes} {bs : List Block} :
    scan value = ⟨bs, none⟩ ↔ value = valueOf bs ∧ ∀ b ∈ bs, b.WellFramed :=
  scanFrom_eq_iff

/-! ## Contents of a block -/

/-- A body is decoded if it is read to its end and holds the declared number of entries. -/
theorem entries_eq_ok_iff {b : Block} {es : List Entry} :
    b.entries = .ok es ↔ Takes Entry.readAll b.body es ∧ es.length = b.count.toNat := by
  constructor
  -- What was decoded has passed all checks, the one for bytes left over among them.
  · intro h
    rw [entries] at h
    split at h
    · cases h
    · split at h
      · cases h
      · next i hread =>
        split at h
        · cases h
        · next hcount =>
          split at h
          · cases h
          · next hleft =>
            obtain rfl := Except.ok.inj h
            refine ⟨Entry.isLocal_readAll.takes_of_left_eq_zero hread ?_, ?_⟩ <;> omega
  -- Conversely none of the checks stops it; the guard on the count is met as every entry takes a
  -- byte.
  · rintro ⟨ht, hcount⟩
    obtain ⟨i, hread, _, hr⟩ := ht (.ofBytes b.body) [] (List.append_nil _).symm
    have hlt := Entry.length_lt_of_readAll hread
    have hleft : i.left = 0 := by rw [left, hr, List.length_nil]
    have hbody : (Input.ofBytes b.body).left = b.body.length := rfl
    rw [entries, if_neg (by omega), hread]
    simp only [hcount, hleft, ne_eq, not_true_eq_false, if_false]

/-- Decoded entries can be written again. -/
theorem storable_of_entries {b : Block} {es : List Entry} (h : b.entries = .ok es) :
    ∀ e ∈ es, e.Storable := by
  obtain ⟨ht, _⟩ := entries_eq_ok_iff.mp h
  obtain ⟨i, hread, _, _⟩ := ht (.ofBytes b.body) [] (List.append_nil _).symm
  exact Entry.storable_of_readAll hread

/-- The entries of a block; of a block that cannot be decoded, none. -/
def content (b : Block) : List Entry :=
  match b.entries with
  | .ok es => es
  | .error _ => []

/-- A block that can be decoded has these entries. -/
theorem content_of_entries {b : Block} {es : List Entry} (h : b.entries = .ok es) :
    b.content = es := by
  rw [content, h]

/-- The block can be decoded, and if it is ordered its entries do not descend. -/
structure Sound (b : Block) : Prop where
  entries_eq : b.entries = .ok b.content
  sorted : b.order = .ordered → b.content.Pairwise fun a b => a.node ≤ b.node

/-! ## Written blocks -/

/-- The block that is written for these entries. -/
def ofEntries (doc : DocId) (order : BlockOrder) (es : List Entry) : Block where
  doc := doc
  order := order
  count := UInt32.ofNat es.length
  byteLength := UInt32.ofNat (Entry.encodeBody es).length
  raw := encode doc order es
  body := Entry.encodeBody es

/-- A written block is one of its document. -/
@[simp] theorem doc_ofEntries (doc : DocId) (order : BlockOrder) (es : List Entry) :
    (ofEntries doc order es).doc = doc := rfl

/-- A written block is flagged as it was to be. -/
@[simp] theorem order_ofEntries (doc : DocId) (order : BlockOrder) (es : List Entry) :
    (ofEntries doc order es).order = order := rfl

/-- A written block has the bytes of its encoding. -/
@[simp] theorem raw_ofEntries (doc : DocId) (order : BlockOrder) (es : List Entry) :
    (ofEntries doc order es).raw = encode doc order es := rfl

end Block

namespace Entry

/-- The entries fit into one block: each can be written, and the length of all of them with
the closing mark is a word. -/
def FitBlock (es : List Entry) : Prop :=
  (∀ e ∈ es, e.Storable) ∧ (encodeBody es).length < UInt32.size

/-- Entries that fit into a block are fewer than the count field can hold. -/
theorem FitBlock.length_lt {es : List Entry} (h : FitBlock es) : es.length < UInt32.size := by
  obtain ⟨i, hread, _, _⟩ := takes_readAll h.1 (.ofBytes (encodeBody es)) []
    (List.append_nil _).symm
  have hlt := length_lt_of_readAll hread
  have hleft : (Input.ofBytes (encodeBody es)).left = (encodeBody es).length := rfl
  have hbody := h.2
  omega

end Entry

namespace Block

variable {es : List Entry}

/-- A written block is well framed if the length field can hold the length of its body. -/
theorem wellFramed_of_length (doc : DocId) (order : BlockOrder)
    (h : (Entry.encodeBody es).length < UInt32.size) : (ofEntries doc order es).WellFramed := by
  -- The length field holds the length of the body, since that is a word.
  have hlength := takes_fixed32 (Bytes.length_littleEndian 4 (Entry.encodeBody es).length)
  have hlt : (Entry.encodeBody es).length < Bytes.bound 4 := h
  rw [Bytes.ofLittleEndian_littleEndian, Nat.mod_eq_of_lt hlt] at hlength
  have hbody : (Entry.encodeBody es).length =
      (UInt32.ofNat (Entry.encodeBody es).length).toNat := by
    rw [UInt32.toNat_ofNat', Nat.mod_eq_of_lt h]
  have htakes :=
    takes_read (takes_varint doc) (takes_byte order.toByte) (BlockOrder.ofByte_toByte order)
    (takes_varint (UInt32.ofNat es.length)) hlength hbody
  simpa only [WellFramed, ofEntries, encode, encodeHeader, List.append_assoc] using htakes

/-- A written block is well framed if its entries fit. -/
theorem wellFramed_ofEntries (doc : DocId) (order : BlockOrder) (h : Entry.FitBlock es) :
    (ofEntries doc order es).WellFramed := wellFramed_of_length doc order h.2

/-- A written block decodes to the entries that it was written for. -/
theorem entries_ofEntries (doc : DocId) (order : BlockOrder) (h : Entry.FitBlock es) :
    (ofEntries doc order es).entries = .ok es := by
  refine entries_eq_ok_iff.mpr ⟨Entry.takes_readAll h.1, ?_⟩
  have hlt := h.length_lt
  rw [ofEntries, UInt32.toNat_ofNat', Nat.mod_eq_of_lt hlt]

/-- A written block has the entries that it was written for. -/
theorem content_ofEntries (doc : DocId) (order : BlockOrder) (h : Entry.FitBlock es) :
    (ofEntries doc order es).content = es :=
  content_of_entries (entries_ofEntries doc order h)

/-- A written block is sound if its entries fit and do not descend where it says so. -/
theorem sound_ofEntries (doc : DocId) {order : BlockOrder} (h : Entry.FitBlock es)
    (hsorted : order = .ordered → es.Pairwise fun a b => a.node ≤ b.node) :
    (ofEntries doc order es).Sound where
  entries_eq := by rw [entries_ofEntries doc order h, content_ofEntries doc order h]
  sorted := by
    rw [content_ofEntries doc order h]
    exact hsorted

end Block

end XmlIndex
