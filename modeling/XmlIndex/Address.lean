/-! # Storage addresses

Where the document store keeps a node: a page and a slot on it, packed into one 64-bit word
with the slot in the lowest 16 bits.  The index carries addresses along and never follows
them. -/

namespace XmlIndex

/-- A packed storage address. -/
structure Address where
  word : UInt64
  deriving DecidableEq, Inhabited

namespace Address

/-- The address of a node whose place is not known. -/
def unknown : Address := ⟨0xFFFFFFFFFFFFFFFF⟩

/-- The address of a slot on a page. -/
def ofPage (page : UInt32) (slot : UInt16) : Address :=
  ⟨UInt64.ofNat (page.toNat <<< 16 + slot.toNat)⟩

/-- The page; bits beyond its 32 are not part of it. -/
def page (a : Address) : UInt32 := UInt32.ofNat (a.word.toNat >>> 16)

/-- The slot on the page. -/
def slot (a : Address) : UInt16 := UInt16.ofNat a.word.toNat

/-- Page and slot with a colon between them. -/
def toText (a : Address) : String :=
  toString a.page.toNat ++ ":" ++ toString a.slot.toNat

theorem page_ofPage (p : UInt32) (s : UInt16) : (ofPage p s).page = p := by
  apply UInt32.toNat_inj.mp
  have := p.toNat_lt
  have := s.toNat_lt
  simp only [page, ofPage, UInt32.toNat_ofNat', UInt64.toNat_ofNat']
  omega

theorem slot_ofPage (p : UInt32) (s : UInt16) : (ofPage p s).slot = s := by
  apply UInt16.toNat_inj.mp
  have := p.toNat_lt
  have := s.toNat_lt
  simp only [slot, ofPage, UInt16.toNat_ofNat', UInt64.toNat_ofNat']
  omega

end Address

end XmlIndex
