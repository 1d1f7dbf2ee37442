import XmlIndex.Bytes

/-! # Checksums

The cyclic redundancy check of 32 bits with the reflected polynomial `0xEDB88320`: the
register starts with all bits set, takes the bits of each byte from the lowest up, and is
inverted at the end. -/

namespace XmlIndex

namespace Checksum

/-- The reflected polynomial, without its highest term. -/
def polynomial : BitVec 32 := 0xEDB88320#32

/-- Shifts one bit out of the register. -/
def shift (r : BitVec 32) : BitVec 32 :=
  if r.getLsbD 0 then (r >>> 1) ^^^ polynomial else r >>> 1

/-- Shifts `n` bits out of the register. -/
def shifts : (n : Nat) → BitVec 32 → BitVec 32
  | 0, r => r
  | n + 1, r => shifts n (shift r)

/-- The register after one more byte. -/
def update (r : BitVec 32) (b : UInt8) : BitVec 32 :=
  shifts 8 (r ^^^ BitVec.ofNat 32 b.toNat)

/-- The checksum of the bytes. -/
def crc32 (bs : Bytes) : BitVec 32 :=
  ~~~(bs.foldl update (BitVec.allOnes 32))

end Checksum

end XmlIndex
