/-! # Byte strings

Keys, values and files are lists of bytes.  This module writes and reads fixed-width
words, lowest byte first (`littleEndian`) or highest byte first (`bigEndian`), and
passes between text and its UTF-8 bytes.  Reading text is either exact
(`decodeText?`) or lossy (`lossyText`), which puts one U+FFFD in place of every
maximal part that cannot belong to a well-formed sequence.

The word lemmas: writing has the stated width, and reading gives back what was written
modulo the width. -/

namespace XmlIndex

/-- A string of bytes. -/
abbrev Bytes := List UInt8

namespace Bytes

/-! ## Words -/

/-- The `width` lowest base-256 digits of `n`, lowest first. -/
def littleEndian : (width : Nat) → (n : Nat) → Bytes
  | 0, _ => []
  | width + 1, n => UInt8.ofNat n :: littleEndian width (n / 256)

/-- The number whose base-256 digits are the bytes, lowest first. -/
def ofLittleEndian : Bytes → Nat
  | [] => 0
  | b :: rest => b.toNat + 256 * ofLittleEndian rest

/-- The two bytes of a 16-bit word, highest first. -/
def bigEndian (n : UInt16) : Bytes :=
  [UInt8.ofNat (n.toNat / 256), UInt8.ofNat n.toNat]

/-- The 16-bit word with these two bytes, highest first. -/
def ofBigEndian (high low : UInt8) : UInt16 :=
  UInt16.ofNat (high.toNat * 256 + low.toNat)

/-- A word has its width. -/
@[simp] theorem length_littleEndian (width n : Nat) : (littleEndian width n).length = width := by
  induction width generalizing n with
  | zero => rfl
  | succ width ih => simp [littleEndian, ih]

/-- How many numbers there are with this many bytes. -/
def bound : (width : Nat) → Nat
  | 0 => 1
  | width + 1 => 256 * bound width

/-- A number is read back modulo the width. -/
theorem ofLittleEndian_littleEndian (width n : Nat) :
    ofLittleEndian (littleEndian width n) = n % bound width := by
  induction width generalizing n with
  | zero => simp [littleEndian, ofLittleEndian, bound, Nat.mod_one]
  | succ width ih =>
    have : n % bound (width + 1) = n % 256 + 256 * (n / 256 % bound width) := by
      rw [bound, Nat.mod_mul]
    simp only [littleEndian, ofLittleEndian, ih, UInt8.toNat_ofNat', this]

/-- So many bytes hold no larger number. -/
theorem ofLittleEndian_lt (bs : Bytes) : ofLittleEndian bs < bound bs.length := by
  induction bs with
  | nil => simp [ofLittleEndian, bound]
  | cons b rest ih =>
    have := b.toNat_lt
    simp only [ofLittleEndian, List.length_cons, bound]
    omega

/-- A 16-bit word has two bytes. -/
@[simp] theorem length_bigEndian (n : UInt16) : (bigEndian n).length = 2 := rfl

/-- A 16-bit word is read back. -/
theorem ofBigEndian_bigEndian (n : UInt16) :
    ofBigEndian (UInt8.ofNat (n.toNat / 256)) (UInt8.ofNat n.toNat) = n := by
  apply UInt16.toNat_inj.mp
  have := n.toNat_lt
  simp only [ofBigEndian, UInt8.toNat_ofNat', UInt16.toNat_ofNat']
  omega

/-! ## Text -/

/-- The UTF-8 bytes of a text. -/
def ofText (s : String) : Bytes :=
  s.toUTF8.data.toList

/-- The text with these UTF-8 bytes, if they are well formed. -/
def decodeText? (bs : Bytes) : Option String :=
  String.fromUTF8? ⟨bs.toArray⟩

/-- The range of bytes that may follow a lead byte directly, and how many continuation bytes
the sequence has in all; `none` for a byte that leads no sequence. -/
def continuation? (lead : UInt8) : Option (UInt8 × UInt8 × Nat) :=
  if 0xC2 ≤ lead ∧ lead ≤ 0xDF then some (0x80, 0xBF, 1)
  -- Behind E0 and F0 a smaller second byte would have a shorter form.
  else if lead = 0xE0 then some (0xA0, 0xBF, 2)
  -- Behind ED a second byte from A0 on would start a surrogate.
  else if lead = 0xED then some (0x80, 0x9F, 2)
  else if 0xE1 ≤ lead ∧ lead ≤ 0xEF then some (0x80, 0xBF, 2)
  else if lead = 0xF0 then some (0x90, 0xBF, 3)
  else if 0xF1 ≤ lead ∧ lead ≤ 0xF3 then some (0x80, 0xBF, 3)
  else if lead = 0xF4 then some (0x80, 0x8F, 3)
  else none

/-- The longest run at the front of `bs` that continues a sequence still missing `missing`
bytes, the next of which has to lie between `low` and `high`; the flag tells whether the
sequence was completed. -/
def continuationRun (low high : UInt8) : (missing : Nat) → (bs : Bytes) → Bytes × Bool
  | 0, _ => ([], true)
  | _ + 1, [] => ([], false)
  | missing + 1, b :: rest =>
    if low ≤ b ∧ b ≤ high then
      let (run, complete) := continuationRun 0x80 0xBF missing rest
      (b :: run, complete)
    else
      ([], false)

/-- The scalar value of a complete sequence of at least two bytes. -/
def scalarOf (lead : UInt8) (run : Bytes) : Nat :=
  let leadBits := lead.toNat % (1 <<< (6 - run.length))
  run.foldl (fun n b => n * 64 + b.toNat % 64) leadBits

/-- Text of possibly ill-formed bytes, scanned with at most `fuel` steps: a maximal part of a
broken sequence becomes one U+FFFD.  Every step takes a byte, so the length is fuel enough. -/
def lossyChars : (fuel : Nat) → Bytes → List Char
  | 0, _ => []
  | _ + 1, [] => []
  | fuel + 1, b :: rest =>
    if b < 0x80 then
      Char.ofNat b.toNat :: lossyChars fuel rest
    else
      match continuation? b with
      | none => Char.ofNat 0xFFFD :: lossyChars fuel rest
      | some (low, high, missing) =>
        let (run, complete) := continuationRun low high missing rest
        let char := if complete then Char.ofNat (scalarOf b run) else Char.ofNat 0xFFFD
        char :: lossyChars fuel (rest.drop run.length)

/-- The text of the bytes where they are well formed, and otherwise the text with one U+FFFD
for each maximal part that belongs to no well-formed sequence. -/
def lossyText (bs : Bytes) : String :=
  match decodeText? bs with
  | some s => s
  | none => String.ofList (lossyChars bs.length bs)

/-- Text that is well formed loses nothing. -/
theorem lossyText_of_decodeText? {bs : Bytes} {s : String} (h : decodeText? bs = some s) :
    lossyText bs = s := by
  simp [lossyText, h]

end Bytes

end XmlIndex
