import Mathlib
import XmlIndex.Proofs.BlockFraming

/-! # Blocks are read back

A value made of written blocks is read as these blocks, one after the other and without a fault
(`Block.scan_flatMap_encode`): every block has the header, the bytes and the entries that it was
written from, and its length field holds what the entries take by their own account
(`Entry.length_encodeBody`). -/

namespace XmlIndex

/-! ## Lengths -/

/-- An address takes eight bytes, and the closing mark one. -/
theorem Entry.length_encodeBody (es : List Entry) :
    (encodeBody es).length = (es.map fun e => e.node.encodedLength + 8).sum + 1 := by
  have hend : NodeId.encodeEnd.length = 1 := Varint.length_encode 0
  rw [encodeBody, List.length_append, hend, List.length_flatMap]
  simp only [encode, List.length_append, NodeId.length_encode, Bytes.length_littleEndian]

/-! ## Blocks -/

/-- What a block is written from. -/
structure Draft where
  doc : DocId
  order : BlockOrder
  entries : List Entry
  deriving DecidableEq, Inhabited

namespace Draft

/-- The bytes of the block. -/
def encode (d : Draft) : Bytes := Block.encode d.doc d.order d.entries

/-- What a block that is read has to do with the one that was written. -/
structure ReadAs (d : Draft) (b : Block) : Prop where
  doc : b.doc = d.doc
  order : b.order = d.order
  count : b.count.toNat = d.entries.length
  byteLength : b.byteLength.toNat = (d.entries.map fun e => e.node.encodedLength + 8).sum + 1
  raw : b.raw = d.encode
  entries : b.entries = .ok d.entries

theorem readAs_ofEntries {d : Draft} (h : Entry.FitBlock d.entries) :
    d.ReadAs (Block.ofEntries d.doc d.order d.entries) where
  doc := rfl
  order := rfl
  count := by rw [Block.ofEntries, UInt32.toNat_ofNat', Nat.mod_eq_of_lt h.length_lt]
  byteLength := by
    rw [Block.ofEntries, UInt32.toNat_ofNat', Nat.mod_eq_of_lt h.2, Entry.length_encodeBody]
  raw := rfl
  entries := Block.entries_ofEntries d.doc d.order h

/-- The blocks that are written make up the value, and each is read as what it was written from. -/
theorem exists_blocks {ds : List Draft} (h : ∀ d ∈ ds, Entry.FitBlock d.entries) :
    ∃ bs, ds.flatMap encode = Block.valueOf bs ∧ (∀ b ∈ bs, b.WellFramed) ∧
      List.Forall₂ ReadAs ds bs := by
  refine ⟨ds.map fun d => Block.ofEntries d.doc d.order d.entries, ?_, ?_, ?_⟩
  · rw [Block.valueOf, List.flatMap_map]
    rfl
  · intro b hb
    obtain ⟨d, hd, rfl⟩ := List.mem_map.mp hb
    exact Block.wellFramed_ofEntries d.doc d.order (h d hd)
  · rw [List.forall₂_map_right_iff, List.forall₂_same]
    exact fun d hd => readAs_ofEntries (h d hd)

end Draft

namespace Block

/-- Written blocks are read back from the value that they make up. -/
theorem scan_flatMap_encode {ds : List Draft} (h : ∀ d ∈ ds, Entry.FitBlock d.entries) :
    ∃ bs, scan (ds.flatMap Draft.encode) = ⟨bs, none⟩ ∧ List.Forall₂ Draft.ReadAs ds bs := by
  obtain ⟨bs, hvalue, hwell, hread⟩ := Draft.exists_blocks h
  exact ⟨bs, scan_eq_iff.mpr ⟨hvalue, hwell⟩, hread⟩

/-- An ordered block with an id of two levels and an unordered one without entries. -/
theorem scan_flatMap_encode_pair :
    ∃ bs, scan ([⟨1, .ordered, [⟨⟨[1, 300]⟩, ⟨10⟩⟩]⟩, ⟨2, .unordered, []⟩].flatMap Draft.encode) =
        ⟨bs, none⟩ ∧
      List.Forall₂ Draft.ReadAs [⟨1, .ordered, [⟨⟨[1, 300]⟩, ⟨10⟩⟩]⟩, ⟨2, .unordered, []⟩] bs := by
  refine scan_flatMap_encode fun d hd => ?_
  have hbody : ∀ d ∈ [(⟨1, .ordered, [⟨⟨[1, 300]⟩, ⟨10⟩⟩]⟩ : Draft), ⟨2, .unordered, []⟩],
      (∀ e ∈ d.entries, e.node.Valid ∧ e.node.levels.length < UInt32.size) ∧
        (d.entries.map fun e => e.node.encodedLength + 8).sum + 1 < UInt32.size := by
    decide
  obtain ⟨hstorable, hlength⟩ := hbody d hd
  exact ⟨hstorable, by rwa [Entry.length_encodeBody]⟩

end Block

end XmlIndex
