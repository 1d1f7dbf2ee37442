import XmlIndex.Proofs.DocumentOrder
import XmlIndex.Proofs.KeyFormation

/-! # The order of keys

Keys are ordered by their bytes.  As the number of the collection and the codes stand in a key
with the highest byte first, that is an order of what a key is made of: families first, then
collections, then the two codes, or the bytes of the local name in the family without codes
(`Key.compare_toBytes`). -/

namespace XmlIndex

namespace Bytes

/-! ## Words -/

/-- The first byte counts 256 times as much as the second. -/
theorem toNat_ofBigEndian (high low : UInt8) :
    (ofBigEndian high low).toNat = high.toNat * 256 + low.toNat := by
  have := high.toNat_lt
  have := low.toNat_lt
  rw [ofBigEndian, UInt16.toNat_ofNat']
  omega

/-- Two bytes make up a word that is written as these two bytes. -/
theorem bigEndian_ofBigEndian (high low : UInt8) :
    bigEndian (ofBigEndian high low) = [high, low] := by
  have := low.toNat_lt
  have hhigh : (high.toNat * 256 + low.toNat) / 256 = high.toNat := by omega
  have hlow : UInt8.ofNat (high.toNat * 256 + low.toNat) = low := by
    apply UInt8.toNat_inj.mp
    rw [UInt8.toNat_ofNat']
    omega
  rw [bigEndian, toNat_ofBigEndian, hhigh, hlow, UInt8.ofNat_toNat]

/-- The bytes of a smaller word come before those of a greater one. -/
theorem compare_bigEndian_of_lt {m n : UInt16} (h : m < n) :
    compare (bigEndian m) (bigEndian n) = .lt := by
  -- Both words are split into a high and a low byte, as numbers.
  have hlt := UInt16.lt_iff_toNat_lt.mp h
  have := n.toNat_lt
  rw [bigEndian, bigEndian, List.compare_cons_cons]
  -- Either the high bytes decide, or they agree and the low bytes do.
  by_cases hhigh : m.toNat / 256 = n.toNat / 256
  · have hless : UInt8.ofNat m.toNat < UInt8.ofNat n.toNat := by
      rw [UInt8.lt_iff_toNat_lt, UInt8.toNat_ofNat', UInt8.toNat_ofNat']
      omega
    rw [hhigh, Std.ReflOrd.compare_self, List.compare_cons_cons, Std.compare_eq_lt.mpr hless]
    rfl
  · have hless : UInt8.ofNat (m.toNat / 256) < UInt8.ofNat (n.toNat / 256) := by
      rw [UInt8.lt_iff_toNat_lt, UInt8.toNat_ofNat', UInt8.toNat_ofNat']
      omega
    rw [Std.compare_eq_lt.mpr hless]
    rfl

/-- Words with the highest byte first have the order of their bytes. -/
theorem compare_bigEndian (m n : UInt16) :
    compare (bigEndian m) (bigEndian n) = compare m n := by
  -- The case of less carries the other two.
  cases h : compare m n with
  | lt => exact compare_bigEndian_of_lt (Std.compare_eq_lt.mp h)
  | eq =>
    obtain rfl := Std.LawfulEqOrd.eq_of_compare h
    exact Std.ReflOrd.compare_self
  | gt =>
    rw [Std.OrientedOrd.eq_swap, compare_bigEndian_of_lt (Std.compare_eq_gt.mp h)]
    rfl

end Bytes

namespace Key

variable {k k' : Key}

/-! ## Tails -/

/-- Keys of ID attributes have no codes. -/
theorem symbols?_of_attrId (h : k.kind = .attrId) : k.symbols? = none := by
  rw [symbols?, h]

/-- The tail of a key for an ID attribute is the name itself. -/
theorem localName?_of_attrId (h : k.kind = .attrId) : k.localName? = some k.tail := if_pos h

/-- The tail of a key with codes has both of them. -/
theorem exists_symbols? (h : k.kind ≠ .attrId) :
    ∃ symbol ns, k.symbols? = some (symbol, ns) ∧
      k.tail = Bytes.bigEndian symbol ++ Bytes.bigEndian ns := by
  obtain ⟨kind, collection, tail, hlength⟩ := k
  match tail, hlength h with
  | [a, b, c, d], _ =>
    refine ⟨Bytes.ofBigEndian a b, Bytes.ofBigEndian c d, ?_, ?_⟩
    · cases kind with
      | attrId => exact absurd rfl h
      | _ => rfl
    · rw [Bytes.bigEndian_ofBigEndian, Bytes.bigEndian_ofBigEndian]
      rfl

/-- The order of two keys of one family in one collection: that of their codes, the one of the
local name first, or that of the bytes of their local names. -/
def compareNames (k k' : Key) : Ordering :=
  match k.symbols?, k'.symbols? with
  | some (symbol, ns), some (symbol', ns') => (compare symbol symbol').then (compare ns ns')
  | _, _ => compare k.localName? k'.localName?

/-- Tails within one family have the order of the names that they stand for. -/
theorem compare_tail (h : k.kind = k'.kind) : compare k.tail k'.tail = k.compareNames k' := by
  -- One family compares the texts, the others their two codes.
  by_cases hk : k.kind = .attrId
  · rw [compareNames, symbols?_of_attrId hk, localName?_of_attrId hk,
      localName?_of_attrId (h.symm.trans hk)]
    rfl
  · obtain ⟨symbol, ns, hsymbols, htail⟩ := exists_symbols? hk
    obtain ⟨symbol', ns', hsymbols', htail'⟩ := exists_symbols? (h ▸ hk)
    have hlength : (Bytes.bigEndian symbol).length = (Bytes.bigEndian symbol').length := rfl
    rw [compareNames, hsymbols, hsymbols', htail, htail', compare_append hlength,
      Bytes.compare_bigEndian, Bytes.compare_bigEndian]

/-! ## Keys -/

/-- What stands in front of the tail is compared as family and collection are. -/
theorem compare_head (kind kind' : NameKind) (collection collection' : CollectionId) :
    compare (head kind collection) (head kind' collection') =
      (compare kind kind').then (compare collection collection') := by
  rw [head, head, List.compare_cons_cons, Bytes.compare_bigEndian]
  rfl

/-- Keys are ordered by family, then by collection, then by name. -/
theorem compare_toBytes (k k' : Key) :
    compare k.toBytes k'.toBytes =
      ((compare k.kind k'.kind).then (compare k.collection k'.collection)).then
        (k.compareNames k') := by
  have hlength : (head k.kind k.collection).length = (head k'.kind k'.collection).length := rfl
  rw [toBytes, toBytes, compare_append hlength, compare_head]
  -- Only keys of one family get as far as their tails.
  by_cases hk : k.kind = k'.kind
  · rw [compare_tail hk]
  · cases hc : compare k.kind k'.kind with
    | eq => exact absurd (Std.LawfulEqOrd.eq_of_compare hc) hk
    | lt | gt => rfl

end Key

end XmlIndex
