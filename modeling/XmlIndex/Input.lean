import XmlIndex.Action
import XmlIndex.Varint

/-! # Input

Bytes with a read position.  The bytes still to be read are kept beside the position, so
reading does not walk the bytes again; that they are the ones behind the position is part of
the type.

Every reading action moves the position over what it takes and leaves it alone when it fails.
The lemmas `byte_left`, `raw_left`, `fixed_left` and `varint_left` say how much a successful
read takes; loops over input end because of them. -/

namespace XmlIndex

/-- Bytes with a read position. -/
structure Input where
  data : Bytes
  pos : Nat
  rest : Bytes
  rest_eq : rest = data.drop pos
  pos_le : pos ≤ data.length

namespace Input

/-- An action that reads input. -/
abbrev Reads (α : Type) := Action Input α

/-- The bytes with the position at their front. -/
def ofBytes (data : Bytes) : Input := ⟨data, 0, data, rfl, Nat.zero_le _⟩

instance : Inhabited Input := ⟨ofBytes []⟩

/-- The number of bytes behind the position. -/
def left (i : Input) : Nat := i.rest.length

/-- What is left is what is behind the position. -/
theorem left_eq (i : Input) : i.left = i.data.length - i.pos := by
  simp [left, i.rest_eq]

/-- The input moved over `n` bytes that are there. -/
def advance (i : Input) (n : Nat) (h : n ≤ i.left) : Input where
  data := i.data
  pos := i.pos + n
  rest := i.rest.drop n
  rest_eq := by rw [i.rest_eq, List.drop_drop]
  pos_le := by
    have := i.left_eq
    have := i.pos_le
    omega

/-- Moving over bytes leaves so many fewer. -/
@[simp] theorem left_advance (i : Input) (n : Nat) (h : n ≤ i.left) :
    (i.advance n h).left = i.left - n := by
  simp [left, advance]

/-! ## Reading -/

/-- One byte. -/
def byte : Reads UInt8 := fun i =>
  match h : i.rest with
  | [] => .error .byteMissing i
  | b :: _ => .ok b (i.advance 1 (by simp [left, h]))

/-- The next `n` bytes. -/
def raw (n : Nat) : Reads Bytes := fun i =>
  if h : n ≤ i.left then .ok (i.rest.take n) (i.advance n h)
  else .error (.bytesMissing n i.pos i.left) i

/-- Moves over `n` bytes. -/
def skip (n : Nat) : Reads Unit := do
  let _ ← raw n

/-- Moves to a position. -/
def seek (pos : Nat) : Reads Unit := fun i =>
  if h : pos ≤ i.data.length then .ok () ⟨i.data, pos, i.data.drop pos, rfl, h⟩
  else .error (.seekBeyondEnd pos i.data.length) i

/-- A number of `width` bytes, lowest first. -/
def fixed (width : Nat) : Reads Nat := do
  let bs ← raw width
  return Bytes.ofLittleEndian bs

/-- A 32-bit word of four bytes. -/
def fixed32 : Reads UInt32 := do
  let n ← fixed 4
  return UInt32.ofNat n

/-- A 64-bit word of eight bytes. -/
def fixed64 : Reads UInt64 := do
  let n ← fixed 8
  return UInt64.ofNat n

/-- A 32-bit word of variable length. -/
def varint : Reads UInt32 := fun i =>
  match h : Varint.decode i.rest with
  -- The bytes taken are there, since reading never takes more than it is given.
  | .ok (v, n) => .ok v (i.advance n (by simpa [left] using (Varint.decode_used h).2))
  | .error e => .error e i

/-! ## What reading takes -/

/-- Reading a byte takes one. -/
theorem byte_left {i i' : Input} {b : UInt8} (h : byte i = .ok b i') : i'.left + 1 = i.left := by
  simp only [byte] at h
  split at h
  · simp at h
  · next hr =>
    simp only [EStateM.Result.ok.injEq] at h
    rw [← h.2, left_advance]
    simp [left, hr]

/-- Reading bytes takes as many. -/
theorem raw_left {n : Nat} {i i' : Input} {bs : Bytes} (h : raw n i = .ok bs i') :
    i'.left + n = i.left := by
  simp only [raw] at h
  split at h
  · simp only [EStateM.Result.ok.injEq] at h
    rw [← h.2, left_advance]
    omega
  · simp at h

/-- Reading a number of fixed width takes its width. -/
theorem fixed_left {width : Nat} {i i' : Input} {n : Nat} (h : fixed width i = .ok n i') :
    i'.left + width = i.left := by
  obtain ⟨bs, s, hr, h⟩ := Action.bind_eq_ok_iff.mp h
  obtain ⟨_, rfl⟩ := EStateM.Result.ok.inj h
  exact raw_left hr

/-- Reading a word takes four bytes. -/
theorem fixed32_left {i i' : Input} {v : UInt32} (h : fixed32 i = .ok v i') :
    i'.left + 4 = i.left := by
  obtain ⟨n, s, hr, h⟩ := Action.bind_eq_ok_iff.mp h
  obtain ⟨_, rfl⟩ := EStateM.Result.ok.inj h
  exact fixed_left hr

/-- Reading a long word takes eight bytes. -/
theorem fixed64_left {i i' : Input} {v : UInt64} (h : fixed64 i = .ok v i') :
    i'.left + 8 = i.left := by
  obtain ⟨n, s, hr, h⟩ := Action.bind_eq_ok_iff.mp h
  obtain ⟨_, rfl⟩ := EStateM.Result.ok.inj h
  exact fixed_left hr

/-- Reading a number of variable length takes one byte at least. -/
theorem varint_left {i i' : Input} {v : UInt32} (h : varint i = .ok v i') : i'.left < i.left := by
  simp only [varint] at h
  split at h
  · next hd =>
    simp only [EStateM.Result.ok.injEq] at h
    have := Varint.decode_used hd
    rw [← h.2, left_advance]
    simp only [left]
    omega
  · simp at h

end Input

end XmlIndex
