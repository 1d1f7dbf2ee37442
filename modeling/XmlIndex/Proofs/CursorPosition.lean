import XmlIndex.Block.Cursor
import XmlIndex.Proofs.ActionSteps
import XmlIndex.Proofs.EntryReading

/-! # Where a cursor stands

A cursor is loaded from a place in a body (`Cursor.LoadedAt`), and what its steps do is known from
what is read at the places they go to, whatever the bytes are (`Cursor.ofBody_eq_ok_iff`,
`Cursor.advance_eq_ok_iff`, `Cursor.reset_eq_ok_iff`).

If the body can be read, the cursor stands in front of a list of entries, those that are still to
come with the one it stands on first (`Cursor.At`), and remembers another such place
(`Cursor.MarkedAt`).  Then no step of it fails: `advance` drops the first entry, `mark`
remembers the entries to come, and `reset` goes back to those remembered, provided that there
is one.  A walk with a cursor is thereby a walk through a list. -/

namespace XmlIndex

open Input

namespace Cursor

variable {body : Bytes} {es : List Entry}

/-! ## Loading -/

/-- The cursor holds what is read at this place. -/
def LoadedAt (c : Cursor) (i : Input) : Prop :=
  i.pos = c.pos ∧ Entry.read? i = .ok c.current? c.input

variable {c c' : Cursor} {i : Input} {e : Entry} {e? : Option Entry}

/-- The cursor reads the body of its place. -/
theorem LoadedAt.data_input (h : c.LoadedAt i) : c.input.data = i.data := by
  obtain ⟨_, _, hd, _⟩ := Entry.isLocal_read? _ _ _ h.2
  exact hd

/-- A position in a body is determined by its number. -/
theorem input_eq_of_pos {i j : Input} (hd : i.data = j.data) (hp : i.pos = j.pos) : i = j :=
  eq_of_data_of_rest hd (by rw [i.rest_eq, j.rest_eq, hd, hp])

/-- Loading keeps the mark, and leaves the cursor at what was read. -/
theorem load_eq_ok_iff :
    load c = .ok () c' ↔ c'.LoadedAt c.input ∧ c'.marked = c.marked := by
  simp only [load, LoadedAt]
  -- Loading succeeds if the place can be read, be it the closing mark.
  cases hr : Entry.read? c.input with
  | ok e? input =>
    constructor
    · intro h
      obtain ⟨_, rfl⟩ := EStateM.Result.ok.inj h
      exact ⟨⟨rfl, rfl⟩, rfl⟩
    · rintro ⟨⟨hp, h⟩, hm⟩
      obtain ⟨rfl, rfl⟩ := EStateM.Result.ok.inj h
      cases c'
      simp_all
  | error err input =>
    constructor
    · intro h
      cases h
    · rintro ⟨⟨_, h⟩, _⟩
      cases h

/-- A cursor on a body is loaded from its front, which it remembers. -/
theorem ofBody_eq_ok_iff :
    ofBody body = .ok c ↔ c.LoadedAt (.ofBytes body) ∧ c.marked = 0 := by
  rw [← load_eq_ok_iff (c := { input := .ofBytes body, current? := none, pos := 0, marked := 0 }),
    ofBody]
  constructor
  · intro h
    -- All that is done is to load the first entry.
    obtain ⟨_, c₁, hload, hget⟩ := Action.bind_eq_ok_iff.mp (Action.eq_ok_of_outcomeOf h)
    obtain ⟨rfl, _⟩ := EStateM.Result.ok.inj hget
    exact hload
  · intro h
    rw [Action.bind_of_ok h]
    rfl

/-- Behind the last entry a step does nothing. -/
theorem advance_of_current?_eq_none (hc : c.current? = none) : advance c = .ok none c := by
  have hend : c.atEnd = true := by rw [atEnd, hc]; rfl
  rw [advance, Action.get_bind]
  simp only [hend, if_true]
  rfl

/-- A step goes to the place behind what the cursor stands on. -/
theorem advance_eq_ok_iff (hc : c.current? = some e) :
    advance c = .ok e? c' ↔ c'.LoadedAt c.input ∧ c'.marked = c.marked ∧ c'.current? = e? := by
  have hend : c.atEnd = false := by rw [atEnd, hc]; rfl
  rw [← and_assoc, ← load_eq_ok_iff, advance, Action.get_bind]
  simp only [hend, Bool.false_eq_true, if_false]
  -- Behind the load, only what the cursor stands on is answered.
  constructor
  · intro h
    obtain ⟨_, c₁, hload, h⟩ := Action.bind_eq_ok_iff.mp h
    obtain ⟨rfl, rfl⟩ := EStateM.Result.ok.inj h
    exact ⟨hload, rfl⟩
  · rintro ⟨hload, rfl⟩
    exact Action.bind_eq_ok_iff.mpr ⟨(), c', hload, rfl⟩

/-- Seeking the remembered position gives the input at that place. -/
theorem seek_marked (hd : i.data = c.input.data) (hp : i.pos = c.marked) :
    (Action.on (·.input) (fun input c => { c with input }) (seek c.marked) :
      Action Cursor Unit) c = .ok () { c with input := i } := by
  have hle : c.marked ≤ c.input.data.length := by
    rw [← hp, ← hd]
    exact i.pos_le
  have hseek : (⟨c.input.data, c.marked, c.input.data.drop c.marked, rfl, hle⟩ : Input) = i :=
    input_eq_of_pos hd.symm hp.symm
  rw [Action.on, seek, dif_pos hle, hseek]

/-- Going back to the mark succeeds if an entry can be read there. -/
theorem reset_eq_ok_iff (hd : i.data = c.input.data) (hp : i.pos = c.marked) :
    reset c = .ok () c' ↔
      c'.LoadedAt i ∧ c'.marked = c.marked ∧ c'.current?.isSome := by
  have hon := seek_marked hd hp
  have hloads : load { c with input := i } = .ok () c' ↔ c'.LoadedAt i ∧ c'.marked = c.marked :=
    load_eq_ok_iff
  rw [← and_assoc, ← hloads, reset, Action.get_bind, Action.bind_of_ok hon]
  constructor
  · intro h
    obtain ⟨_, c₁, hload, h⟩ := Action.bind_eq_ok_iff.mp h
    rw [Action.get_bind] at h
    -- At the closing mark there is nothing to go back to.
    cases hcur : c₁.current? with
    | none =>
      simp only [atEnd, hcur, Option.isNone_none, if_true] at h
      cases h
    | some e =>
      simp only [atEnd, hcur, Option.isNone_some, Bool.false_eq_true, if_false] at h
      obtain ⟨_, rfl⟩ := EStateM.Result.ok.inj h
      exact ⟨hload, by rw [hcur]; rfl⟩
  -- Conversely, an entry is loaded there, so the cursor does not stand at the end.
  · rintro ⟨hload, hcur⟩
    refine Action.bind_eq_ok_iff.mpr ⟨(), c', hload, ?_⟩
    obtain ⟨e, he⟩ := Option.isSome_iff_exists.mp hcur
    rw [Action.get_bind]
    simp only [atEnd, he, Option.isNone_some, Bool.false_eq_true, if_false]
    rfl

/-- What going back to the mark comes to, if anything can be read there: it fails behind the last
entry, and the cursor stands there all the same. -/
theorem reset_of_loadedAt (hd : i.data = c.input.data) (hp : i.pos = c.marked)
    (hload : c'.LoadedAt i) (hm : c'.marked = c.marked) :
    reset c = if c'.current?.isSome then .ok () c' else .error (.markPastLast c.marked) c' := by
  cases hcur : c'.current? with
  | some e => exact (reset_eq_ok_iff hd hp).mpr ⟨hload, hm, by rw [hcur]; rfl⟩
  -- At the closing mark the load succeeds, and the cursor refuses only then.
  | none =>
    have hloads : load { c with input := i } = .ok () c' := load_eq_ok_iff.mpr ⟨hload, hm⟩
    rw [reset, Action.get_bind, Action.bind_of_ok (seek_marked hd hp), Action.bind_of_ok hloads,
      Action.get_bind]
    simp only [atEnd, hcur, Option.isNone_none, if_true]
    rfl

/-! ## Readable bodies -/

/-- The cursor stands on the first of these entries; they are what is left of the body. -/
def At (c : Cursor) (body : Bytes) (es : List Entry) : Prop :=
  ∃ i i', i.data = body ∧ c.LoadedAt i ∧ Entry.readAll i = .ok es i'

/-- The cursor remembers the first of these entries. -/
def MarkedAt (c : Cursor) (body : Bytes) (es : List Entry) : Prop :=
  ∃ i i', i.data = body ∧ i.pos = c.marked ∧ Entry.readAll i = .ok es i'

/-- The cursor stands on the first of its entries. -/
theorem At.current?_eq (h : c.At body es) : c.current? = es.head? := by
  obtain ⟨i, i', _, hl, ha⟩ := h
  obtain ⟨hn, rfl⟩ | ⟨e, i₁, rest, hs, _, rfl⟩ := Entry.readAll_eq_ok_iff.mp ha
  · rw [hl.2] at hn
    exact (EStateM.Result.ok.inj hn).1
  · rw [hl.2] at hs
    exact (EStateM.Result.ok.inj hs).1

/-- The cursor reads its body. -/
theorem At.data_input (h : c.At body es) : c.input.data = body := by
  obtain ⟨i, i', hd, hl, _⟩ := h
  exact hl.data_input.trans hd

/-- A place in front of entries can be loaded. -/
theorem exists_loadedAt {i' : Input} (h : Entry.readAll i = .ok es i') (marked : Nat) :
    ∃ c : Cursor, c.LoadedAt i ∧ c.marked = marked ∧ c.current? = es.head? := by
  obtain ⟨hn, rfl⟩ | ⟨e, i₁, rest, hs, _, rfl⟩ := Entry.readAll_eq_ok_iff.mp h
  · exact ⟨⟨i', none, i.pos, marked⟩, ⟨rfl, hn⟩, rfl, rfl⟩
  · exact ⟨⟨i₁, some e, i.pos, marked⟩, ⟨rfl, hs⟩, rfl, rfl⟩

/-- A cursor on a body stands on its first entry, whatever is behind the closing mark. -/
theorem ofBody_of_readAll {i' : Input} (h : Entry.readAll (.ofBytes body) = .ok es i') :
    ∃ c, ofBody body = .ok c ∧ c.At body es := by
  obtain ⟨c, hl, hm, _⟩ := exists_loadedAt h 0
  exact ⟨c, ofBody_eq_ok_iff.mpr ⟨hl, hm⟩, .ofBytes body, i', rfl, hl, h⟩

/-- A body that can be read has a cursor in front of all entries. -/
theorem ofBody_of_takes (h : Takes Entry.readAll body es) :
    ∃ c, ofBody body = .ok c ∧ c.At body es := by
  obtain ⟨_, ha, _, _⟩ := h (.ofBytes body) [] (List.append_nil body).symm
  exact ofBody_of_readAll ha

/-- A step drops the first of the entries; behind the last one the cursor stays. -/
theorem At.advance (h : c.At body es) :
    ∃ c', Cursor.advance c = .ok es.tail.head? c' ∧ c'.At body es.tail ∧ c'.marked = c.marked := by
  have hcur := h.current?_eq
  cases es with
  | nil => exact ⟨c, advance_of_current?_eq_none hcur, h, rfl⟩
  | cons e es =>
    have hdata := h.data_input
    obtain ⟨i, i', hd, hl, ha⟩ := h
    -- The cursor is loaded with `e`, so the next place is in front of `es`.
    obtain ⟨i₁, hs, ha'⟩ := Entry.readAll_eq_ok_cons_iff.mp ha
    obtain ⟨_, rfl⟩ := EStateM.Result.ok.inj (hl.2.symm.trans hs)
    obtain ⟨c', hl', hm, hcur'⟩ := exists_loadedAt ha' c.marked
    exact ⟨c', (advance_eq_ok_iff hcur).mpr ⟨hl', hm, hcur'⟩, ⟨_, i', hdata, hl', ha'⟩, hm⟩

/-- Marking remembers the entries to come. -/
theorem At.mark (h : c.At body es) : c.mark.At body es ∧ c.mark.MarkedAt body es := by
  obtain ⟨i, i', hd, hl, ha⟩ := h
  exact ⟨⟨i, i', hd, hl, ha⟩, i, i', hd, hl.1, ha⟩

/-- What is remembered goes with the mark. -/
theorem MarkedAt.of_marked_eq (h : c.MarkedAt body es) (hm : c'.marked = c.marked) :
    c'.MarkedAt body es := by
  obtain ⟨i, i', hd, hp, ha⟩ := h
  exact ⟨i, i', hd, hp.trans hm.symm, ha⟩

/-- Going back to an entry that was remembered. -/
theorem MarkedAt.reset (hd : c.input.data = body) (h : c.MarkedAt body (e :: es)) :
    ∃ c', Cursor.reset c = .ok () c' ∧ c'.At body (e :: es) ∧ c'.marked = c.marked := by
  obtain ⟨i, i', hd', hp, ha⟩ := h
  obtain ⟨c', hl, hm, hcur⟩ := exists_loadedAt ha c.marked
  exact ⟨c', (reset_eq_ok_iff (hd'.trans hd.symm) hp).mpr ⟨hl, hm, by rw [hcur]; rfl⟩,
    ⟨i, i', hd', hl, ha⟩, hm⟩

end Cursor

end XmlIndex
