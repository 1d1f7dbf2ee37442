import XmlIndex.Bytes
import XmlIndex.Error

/-! # Variable-length numbers

A number is written seven bits to a byte, lowest first, and every byte but the last has its
highest bit set.  A 32-bit number takes one to five bytes.

Reading gives the value and the number of bytes it took.  It looks at five bytes at most; of
the last of them only four bits fit into the word, and the others are dropped. -/

namespace XmlIndex

namespace Varint

/-- The bytes of a natural number. -/
def encodeNat (n : Nat) : Bytes :=
  if n < 128 then [UInt8.ofNat n] else UInt8.ofNat (n % 128 + 128) :: encodeNat (n / 128)

/-- The bytes of a word. -/
def encode (v : UInt32) : Bytes := encodeNat v.toNat

/-- The number of bytes of a word. -/
def length (v : UInt32) : Nat :=
  if v < 0x80 then 1
  else if v < 0x4000 then 2
  else if v < 0x200000 then 3
  else if v < 0x10000000 then 4
  else 5

/-- Reads on, with `shift` bits gathered in `value` from `used` bytes. -/
def decodeFrom (shift value used : Nat) : Bytes → Except Error (UInt32 × Nat)
  | [] => .error .varintCut
  | b :: rest =>
    let value := value + (b.toNat % 128) <<< shift
    if b < 128 then .ok (UInt32.ofNat value, used + 1)
    -- The fifth byte, at shift 28, has to be the last.
    else if shift + 7 > 28 then .error .varintOverflow
    else decodeFrom (shift + 7) value (used + 1) rest

/-- The word at the front of the bytes and the number of bytes it takes. -/
def decode (bs : Bytes) : Except Error (UInt32 × Nat) := decodeFrom 0 0 0 bs

theorem decodeFrom_used {shift value used : Nat} {bs : Bytes} {v : UInt32} {n : Nat}
    (h : decodeFrom shift value used bs = .ok (v, n)) : used < n ∧ n ≤ used + bs.length := by
  induction bs generalizing shift value used with
  | nil => simp [decodeFrom] at h
  | cons b rest ih =>
    simp only [decodeFrom] at h
    split at h
    · simp only [Except.ok.injEq, Prod.mk.injEq] at h
      simp only [List.length_cons]
      omega
    -- The byte has a continuation bit: the bytes behind it are read, or there were too many
    -- already.
    · split at h
      · simp at h
      · have := ih h
        simp only [List.length_cons]
        omega

/-- Reading takes at least one byte and no more than there are. -/
theorem decode_used {bs : Bytes} {v : UInt32} {n : Nat} (h : decode bs = .ok (v, n)) :
    0 < n ∧ n ≤ bs.length := by
  simpa using decodeFrom_used h

end Varint

end XmlIndex
