import XmlIndex.Bytes

/-! # Stored values

Values are stored field after field: words lowest byte first, texts, byte strings and lists
with their length in front as a 64-bit word.  Bytes behind the value are left to the reader
of the next one.

Each writer has a reader that takes back what was written and leaves what follows
(`word_append`, `bytes_append`). -/

namespace XmlIndex

namespace Wire

/-- Takes a value from the front of the bytes. -/
abbrev Reader (α : Type) := StateT Bytes Option α

/-! ## Writing -/

/-- A length. -/
def putLength (n : Nat) : Bytes := Bytes.littleEndian 8 n

/-- A byte string. -/
def putBytes (bs : Bytes) : Bytes := putLength bs.length ++ bs

/-- A text. -/
def putText (s : String) : Bytes := putBytes (Bytes.ofText s)

/-- A list. -/
def putList {α : Type} (put : α → Bytes) (l : List α) : Bytes :=
  putLength l.length ++ l.flatMap put

/-! ## Reading -/

/-- The next `n` bytes. -/
def take (n : Nat) : Reader Bytes := fun bs =>
  if n ≤ bs.length then some (bs.take n, bs.drop n) else none

/-- A word of `width` bytes. -/
def word (width : Nat) : Reader Nat := do
  let bs ← take width
  return Bytes.ofLittleEndian bs

/-- A byte string. -/
def bytes : Reader Bytes := do
  let n ← word 8
  take n

/-- A text, whose bytes have to be well formed. -/
def text : Reader String := do
  let bs ← bytes
  Bytes.decodeText? bs

/-- Takes `n` values. -/
def times {α : Type} (read : Reader α) : (n : Nat) → Reader (List α)
  | 0 => pure []
  | n + 1 => do
    let a ← read
    let rest ← times read n
    return a :: rest

/-- A list. -/
def list {α : Type} (read : Reader α) : Reader (List α) := do
  let n ← word 8
  times read n

/-! ## Reading what was written -/

theorem take_append (bs rest : Bytes) : take bs.length (bs ++ rest) = some (bs, rest) := by
  simp [take]

theorem word_append (width n : Nat) (h : n < Bytes.bound width) (rest : Bytes) :
    word width (Bytes.littleEndian width n ++ rest) = some (n, rest) := by
  have ht := take_append (Bytes.littleEndian width n) rest
  rw [Bytes.length_littleEndian] at ht
  simp only [word, bind, StateT.bind, ht, Option.bind_some]
  show some (Bytes.ofLittleEndian (Bytes.littleEndian width n), rest) = some (n, rest)
  rw [Bytes.ofLittleEndian_littleEndian, Nat.mod_eq_of_lt h]

theorem bytes_append (bs : Bytes) (h : bs.length < Bytes.bound 8) (rest : Bytes) :
    bytes (putBytes bs ++ rest) = some (bs, rest) := by
  have hw := word_append 8 bs.length h (bs ++ rest)
  simp only [bytes, bind, StateT.bind, putBytes, putLength, List.append_assoc, hw,
    Option.bind_some]
  exact take_append bs rest

end Wire

end XmlIndex
