import XmlIndex.Block.Basic

/-! # Cursors

A cursor walks through the body of a block and decodes one entry at a time.  It stands on an
entry, or behind the last one.  `mark` remembers the entry it stands on and `reset` goes back
there, so that the same entries can be read again.

A read that fails leaves the entry the cursor stood on in place, with the position already
moved.  `load_left` says that a step onto an entry takes bytes; walks end because of it. -/

namespace XmlIndex

/-- A position in the body of a block and the entry at it. -/
structure Cursor where
  input : Input
  current? : Option Entry
  pos : Nat
  marked : Nat
  deriving Inhabited

namespace Cursor

/-- Reads the entry at the input's position. -/
def load : Action Cursor Unit := fun c =>
  match Entry.read? c.input with
  | .ok entry input => .ok () { c with input, current? := entry, pos := c.input.pos }
  | .error e input => .error e { c with input, pos := c.input.pos }

/-- A cursor on the first entry of a body. -/
def ofBody (body : Bytes) : Except Error Cursor :=
  Action.outcomeOf
    ((do load; get) { input := .ofBytes body, current? := none, pos := 0, marked := 0 })

/-- Whether the cursor stands behind the last entry. -/
def atEnd (c : Cursor) : Bool := c.current?.isNone

/-- Moves to the next entry, which is the answer; behind the last one it stays. -/
def advance : Action Cursor (Option Entry) := do
  if (← get).atEnd then return none
  load
  return (← get).current?

/-- Remembers the entry at the cursor. -/
def mark (c : Cursor) : Cursor := { c with marked := c.pos }

/-- Goes back to the remembered entry, which has to be one. -/
def reset : Action Cursor Unit := do
  let marked := (← get).marked
  Action.on (·.input) (fun input c => { c with input }) (Input.seek marked)
  load
  -- The mark may have been set at the closing mark, where there is no entry.
  if (← get).atEnd then throw (.markPastLast marked)

/-- The number of bytes not yet read. -/
def left (c : Cursor) : Nat := c.input.left

theorem load_left {c c' : Cursor} (h : load c = .ok () c') : c'.left < c.left := by
  simp only [load] at h
  split at h
  · next hr =>
    obtain ⟨_, rfl⟩ := EStateM.Result.ok.inj h
    exact Entry.read?_left hr
  · cases h

/-- A step onto an entry takes bytes. -/
theorem advance_left {c c' : Cursor} {e : Entry} (h : advance c = .ok (some e) c') :
    c'.left < c.left := by
  obtain ⟨c₀, c₁, hg, h⟩ := Action.bind_eq_ok_iff.mp h
  obtain ⟨rfl, rfl⟩ := EStateM.Result.ok.inj hg
  by_cases he : c.atEnd
  · -- Behind the last entry there is none to answer.
    simp only [he, if_true] at h
    cases h
  · simp only [he] at h
    obtain ⟨_, c₂, hl, h⟩ := Action.bind_eq_ok_iff.mp h
    obtain ⟨c₃, c₄, hg, h⟩ := Action.bind_eq_ok_iff.mp h
    obtain ⟨rfl, rfl⟩ := EStateM.Result.ok.inj hg
    obtain ⟨_, rfl⟩ := EStateM.Result.ok.inj h
    exact load_left hl

end Cursor

end XmlIndex
