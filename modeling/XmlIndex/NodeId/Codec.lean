import XmlIndex.NodeId.Basic
import XmlIndex.Input

/-! # Node ids in bytes

A node id is written as the number of its levels and then the levels, all as variable-length
numbers.  A number zero stands for the end of the document.

Every level takes at least one byte, so a count above the number of bytes left is refused
before anything is read; an ordinal zero is refused where it stands. -/

namespace XmlIndex

namespace NodeId

/-- The bytes of an id. -/
def encode (n : NodeId) : Bytes :=
  Varint.encode (UInt32.ofNat n.levels.length) ++ n.levels.flatMap Varint.encode

/-- The bytes of the closing mark. -/
def encodeEnd : Bytes := Varint.encode 0

/-- The number of bytes of an id. -/
def encodedLength (n : NodeId) : Nat :=
  Varint.length (UInt32.ofNat n.levels.length) + (n.levels.map Varint.length).foldl (· + ·) 0

/-- Reads `count` ordinals. -/
def readLevels : (count : Nat) → Input.Reads (List UInt32)
  | 0 => pure []
  | count + 1 => do
    let level ← Input.varint
    if level = 0 then throw .levelZero
    let levels ← readLevels count
    return level :: levels

/-- Reads `count` ordinals if there are that many bytes. -/
def readCounted (count : Nat) : Input.Reads NodeId := fun i =>
  if i.left < count then .error (.levelsMissing count) i
  else (NodeId.mk <$> readLevels count) i

/-- Reads an id or the closing mark. -/
def read : Input.Reads NodeId := do
  let count ← Input.varint
  readCounted count.toNat

theorem readLevels_left {count : Nat} {i i' : Input} {levels : List UInt32}
    (h : readLevels count i = .ok levels i') : i'.left ≤ i.left := by
  induction count generalizing i levels with
  | zero =>
    obtain ⟨_, rfl⟩ := EStateM.Result.ok.inj h
    exact Nat.le_refl _
  | succ count ih =>
    obtain ⟨level, i₁, hv, h⟩ := Action.bind_eq_ok_iff.mp h
    have := Input.varint_left hv
    -- A level zero is refused before any further level is read.
    by_cases hz : level = 0
    · subst hz
      cases h
    · simp only [hz, if_false] at h
      obtain ⟨rest, i₂, hr, h⟩ := Action.bind_eq_ok_iff.mp h
      obtain ⟨_, rfl⟩ := EStateM.Result.ok.inj h
      have := ih hr
      omega

theorem read_left {i i' : Input} {n : NodeId} (h : read i = .ok n i') : i'.left < i.left := by
  obtain ⟨count, i₁, hv, h⟩ := Action.bind_eq_ok_iff.mp h
  -- The count alone takes a byte.
  have := Input.varint_left hv
  simp only [readCounted] at h
  split at h
  · cases h
  · obtain ⟨levels, i₂, hl, h⟩ := Action.bind_eq_ok_iff.mp h
    obtain ⟨_, rfl⟩ := EStateM.Result.ok.inj h
    have := readLevels_left hl
    omega

end NodeId

end XmlIndex
