import XmlIndex.Proofs.CursorPosition

/-! # A cursor as two indices

A cursor knows bytes and offsets only, and it has always read one entry more than the one in front
of it.  On a body that was written from a list it is nevertheless two indices into that list, of
the entry it stands on and of the one it remembers (`Cursor.Indices`), the index behind the last
entry being the closing mark.

`Entry.place` is the place in the body at which the entry with an index begins.  All moves of a
cursor lead from such places to such places (`Cursor.Follows.move`), so no sequence of moves, marks
at the end and resets behind it included, shows a difference (`Cursor.moves_as_indices`). -/

namespace XmlIndex

namespace Action

variable {μ σ τ α : Type}

/-- The answers to a list of moves, one move after the other whatever came of those before, and
the state in the end. -/
def replay (act : μ → Action σ α) : List μ → σ → List (Except Error α) × σ
  | [], s => ([], s)
  | m :: moves, s =>
    let (answers, s') := replay act moves (stateOf (act m s))
    (outcomeOf (act m s) :: answers, s')

/-- Moves that answer alike from related states, and lead to related states, do so all the way. -/
theorem replay_of_related {act : μ → Action σ α} {act' : μ → Action τ α} {R : σ → τ → Prop}
    (hmove : ∀ m s t, R s t → outcomeOf (act m s) = outcomeOf (act' m t) ∧
      R (stateOf (act m s)) (stateOf (act' m t))) {s : σ} {t : τ} (h : R s t) (moves : List μ) :
    (replay act moves s).1 = (replay act' moves t).1 ∧
      R (replay act moves s).2 (replay act' moves t).2 := by
  -- Every move leads from related states to related states, which is what the rest begins with.
  induction moves generalizing s t with
  | nil => exact ⟨rfl, h⟩
  | cons m moves ih =>
    obtain ⟨hanswer, hnext⟩ := hmove m s t h
    obtain ⟨hanswers, hend⟩ := ih hnext
    refine ⟨?_, hend⟩
    simp only [replay]
    rw [hanswer, hanswers]

end Action

namespace Entry

open Input

/-! ## Places in a body -/

/-- The number of bytes in front of the entry with an index; in front of the closing mark, if there
is no such entry. -/
def offset (es : List Entry) (k : Nat) : Nat := ((es.take k).flatMap encode).length

theorem offset_le (es : List Entry) (k : Nat) (rest : Bytes) :
    offset es k ≤ (encodeBody es ++ rest).length := by
  have hsplit : (es.flatMap encode).length =
      offset es k + ((es.drop k).flatMap encode).length := by
    rw [offset, ← List.length_append, ← List.flatMap_append, List.take_append_drop]
  rw [encodeBody, List.length_append, List.length_append]
  omega

/-- The place in the body of these entries at which the one with an index begins. -/
def place (es : List Entry) (rest : Bytes) (k : Nat) : Input where
  data := encodeBody es ++ rest
  pos := offset es k
  rest := (encodeBody es ++ rest).drop (offset es k)
  rest_eq := rfl
  pos_le := offset_le es k rest

variable {es : List Entry} {rest : Bytes} {k : Nat}

/-- From a place on there are the entries with that index and higher ones, and the closing mark. -/
theorem rest_place (es : List Entry) (rest : Bytes) (k : Nat) :
    (place es rest k).rest = (es.drop k).flatMap encode ++ (NodeId.encodeEnd ++ rest) := by
  have hsplit : encodeBody es ++ rest = (es.take k).flatMap encode ++
      ((es.drop k).flatMap encode ++ (NodeId.encodeEnd ++ rest)) := by
    rw [← List.append_assoc, ← List.flatMap_append, List.take_append_drop, encodeBody,
      List.append_assoc]
  show (encodeBody es ++ rest).drop (offset es k) = _
  rw [hsplit, offset, List.drop_left]

/-- At the place of an entry that entry is read, up to the place of the next one. -/
theorem read?_place (hes : ∀ e ∈ es, e.Storable) (hk : k < es.length) :
    read? (place es rest k) = .ok (some es[k]) (place es rest (k + 1)) := by
  have hrest := rest_place es rest k
  rw [List.drop_eq_getElem_cons hk, List.flatMap_cons, List.append_assoc,
    ← rest_place es rest (k + 1)] at hrest
  obtain ⟨i', hread, hdata, hrest'⟩ :=
    takes_read? (hes es[k] (List.getElem_mem hk)) (place es rest k) _ hrest
  rw [hread, eq_of_data_of_rest (j := place es rest (k + 1)) hdata hrest']

/-- Behind the last entry the closing mark is read. -/
theorem exists_read?_place_length (es : List Entry) (rest : Bytes) :
    ∃ i', read? (place es rest es.length) = .ok none i' := by
  have hrest := rest_place es rest es.length
  rw [List.drop_length, List.flatMap_nil, List.nil_append] at hrest
  obtain ⟨i', hread, _⟩ := takes_read?_encodeEnd (place es rest es.length) rest hrest
  exact ⟨i', hread⟩

end Entry

namespace Cursor

variable {es : List Entry} {rest : Bytes} {c : Cursor}

/-! ## Moves -/

/-- What a cursor can be asked for. -/
inductive Move where
  | advance
  | mark
  | reset

/-- A move; only `advance` answers an entry. -/
def Move.act : Move → Action Cursor (Option Entry)
  | advance => Cursor.advance
  | mark => fun c => .ok none c.mark
  | reset => do
    Cursor.reset
    return none

/-- The index of the entry that a cursor stands on, and of the one that it remembers. -/
structure Indices where
  here : Nat
  marked : Nat

/-- A move of the indices.  `advance` goes up to the end of the list and answers the entry there,
`mark` remembers where it stands, and `reset` goes back, which fails if there is no entry. -/
def Indices.move (es : List Entry) : Move → Action Indices (Option Entry)
  | .advance => fun p =>
    let here := min (p.here + 1) es.length
    .ok es[here]? { p with here }
  | .mark => fun p => .ok none { p with marked := p.here }
  | .reset => fun p =>
    if p.marked < es.length then .ok none { p with here := p.marked }
    else .error (.markPastLast (Entry.offset es p.marked)) { p with here := p.marked }

/-- What can be seen of a cursor is what the indices say: the entry there, if there is one, and the
offsets in bytes. -/
structure Shows (es : List Entry) (c : Cursor) (p : Indices) : Prop where
  here_le : p.here ≤ es.length
  marked_le : p.marked ≤ es.length
  current?_eq : c.current? = es[p.here]?
  pos_eq : c.pos = Entry.offset es p.here
  marked_eq : c.marked = Entry.offset es p.marked

/-- The cursor has read what is at the place of its index, and remembers the other one. -/
structure Follows (es : List Entry) (rest : Bytes) (c : Cursor) (p : Indices) : Prop where
  here_le : p.here ≤ es.length
  marked_le : p.marked ≤ es.length
  loaded : c.LoadedAt (Entry.place es rest p.here)
  marked_eq : c.marked = Entry.offset es p.marked

/-- At every place something is read: the entry with that index, or the closing mark. -/
theorem exists_loadedAt_place (hes : ∀ e ∈ es, e.Storable) (rest : Bytes) {k : Nat}
    (hk : k ≤ es.length) (marked : Nat) :
    ∃ c : Cursor, c.LoadedAt (Entry.place es rest k) ∧ c.marked = marked ∧ c.current? = es[k]? := by
  obtain hlt | rfl := Nat.lt_or_eq_of_le hk
  · exact ⟨⟨_, some es[k], _, marked⟩, ⟨rfl, Entry.read?_place hes hlt⟩, rfl,
      (List.getElem?_eq_getElem hlt).symm⟩
  · obtain ⟨i', hread⟩ := Entry.exists_read?_place_length es rest
    exact ⟨⟨i', none, _, marked⟩, ⟨rfl, hread⟩, rfl, (List.getElem?_eq_none (Nat.le_refl _)).symm⟩

/-- What a cursor has read at a place is the entry with that index. -/
theorem LoadedAt.current?_of_place (hes : ∀ e ∈ es, e.Storable) {k : Nat} (hk : k ≤ es.length)
    (h : c.LoadedAt (Entry.place es rest k)) : c.current? = es[k]? := by
  obtain ⟨c', hload, _, hcur⟩ := exists_loadedAt_place hes rest hk c.marked
  obtain ⟨heq, _⟩ := EStateM.Result.ok.inj (h.2.symm.trans hload.2)
  rw [heq, hcur]

variable {c' : Cursor} {p : Indices}

theorem Follows.shows (hes : ∀ e ∈ es, e.Storable) (h : c.Follows es rest p) : c.Shows es p where
  here_le := h.here_le
  marked_le := h.marked_le
  current?_eq := h.loaded.current?_of_place hes h.here_le
  pos_eq := h.loaded.1.symm
  marked_eq := h.marked_eq

theorem Follows.data_input (h : c.Follows es rest p) :
    c.input.data = Entry.encodeBody es ++ rest :=
  h.loaded.data_input

/-- Going on leads to the place of the next entry, and from the closing mark nowhere. -/
theorem Follows.advance (hes : ∀ e ∈ es, e.Storable) (h : c.Follows es rest p) :
    ∃ c', Cursor.advance c = .ok es[min (p.here + 1) es.length]? c' ∧
      c'.Follows es rest { p with here := min (p.here + 1) es.length } := by
  have hcur := h.loaded.current?_of_place hes h.here_le
  obtain hlt | heq := Nat.lt_or_eq_of_le h.here_le
  · rw [Nat.min_eq_left hlt]
    rw [List.getElem?_eq_getElem hlt] at hcur
    -- The input stands at the next place already.
    obtain ⟨_, hinput⟩ := EStateM.Result.ok.inj (h.loaded.2.symm.trans (Entry.read?_place hes hlt))
    obtain ⟨c', hload, hmarked, hcur'⟩ := exists_loadedAt_place hes rest hlt c.marked
    refine ⟨c', (advance_eq_ok_iff hcur).mpr ⟨?_, hmarked, hcur'⟩, ?_⟩
    · rw [hinput]
      exact hload
    · exact ⟨hlt, h.marked_le, hload, hmarked.trans h.marked_eq⟩
  · have hstays : min (p.here + 1) es.length = p.here := by omega
    have hnone : es[p.here]? = none := by rw [heq, List.getElem?_eq_none (Nat.le_refl _)]
    rw [hnone] at hcur
    rw [hstays, hnone]
    exact ⟨c, advance_of_current?_eq_none hcur, h⟩

/-- Going back leads to the place that is remembered; it fails at the closing mark, and then the
cursor stands there. -/
theorem Follows.reset (hes : ∀ e ∈ es, e.Storable) (h : c.Follows es rest p) :
    ∃ c', c'.Follows es rest { p with here := p.marked } ∧
      Cursor.reset c = if p.marked < es.length then .ok () c'
        else .error (.markPastLast (Entry.offset es p.marked)) c' := by
  obtain ⟨c', hload, hmarked, hcur⟩ := exists_loadedAt_place hes rest h.marked_le c.marked
  refine ⟨c', ⟨h.marked_le, h.marked_le, hload, hmarked.trans h.marked_eq⟩, ?_⟩
  rw [reset_of_loadedAt h.data_input.symm h.marked_eq.symm hload hmarked, hcur, h.marked_eq]
  split
  · next hlt => rw [if_pos (by simpa using hlt)]
  · next hge => rw [if_neg (by simpa using hge)]

/-- Every move of the cursor is the move of its indices. -/
theorem Follows.move (hes : ∀ e ∈ es, e.Storable) (h : c.Follows es rest p) (m : Move) :
    Action.outcomeOf (m.act c) = Action.outcomeOf (Indices.move es m p) ∧
      (Action.stateOf (m.act c)).Follows es rest (Action.stateOf (Indices.move es m p)) := by
  cases m with
  | advance =>
    obtain ⟨c', hadvance, hfollows⟩ := h.advance hes
    rw [Move.act, hadvance]
    exact ⟨rfl, hfollows⟩
  | mark => exact ⟨rfl, h.here_le, h.here_le, h.loaded, h.loaded.1.symm⟩
  | reset =>
    obtain ⟨c', hfollows, hreset⟩ := h.reset hes
    -- The cursor cannot load an entry where the closing mark is.
    by_cases hlt : p.marked < es.length
    · have hmove : Indices.move es .reset p = .ok none { p with here := p.marked } := if_pos hlt
      rw [if_pos hlt] at hreset
      rw [Move.act, Action.bind_of_ok hreset, hmove]
      exact ⟨rfl, hfollows⟩
    · have hmove : Indices.move es .reset p =
          .error (.markPastLast (Entry.offset es p.marked)) { p with here := p.marked } :=
        if_neg hlt
      rw [if_neg hlt] at hreset
      rw [Move.act, Action.bind_of_error hreset, hmove]
      exact ⟨rfl, hfollows⟩

/-- The one failure of the indices is that of going back to the closing mark. -/
theorem kind_of_mem_replay {e : Error} {moves : List Move}
    (h : .error e ∈ (Action.replay (Indices.move es) moves p).1) : e.kind = .malformedStream := by
  -- A move that fails does not end the replay, so each answer is looked at.
  induction moves generalizing p with
  | nil => cases h
  | cons m moves ih =>
    simp only [Action.replay, List.mem_cons] at h
    obtain hfirst | hlater := h
    · cases m with
      | advance | mark => cases hfirst
      | reset =>
        simp only [Indices.move] at hfirst
        split at hfirst
        · cases hfirst
        · obtain rfl := Except.error.inj hfirst
          rfl
    · exact ih hlater

/-- A cursor on a body with these entries in front is two indices into the list of them, which
start at its first entry.  Whatever it is asked for, in whatever order, it answers what they do,
and shows the entry and the offsets that they say.  It fails only when it goes back to the closing
mark, and then the stream is malformed. -/
theorem moves_as_indices {es : List Entry} (hes : ∀ e ∈ es, e.Storable) (rest : Bytes) :
    ∃ c, ofBody (Entry.encodeBody es ++ rest) = .ok c ∧ ∀ moves : List Move,
      (Action.replay Move.act moves c).1 = (Action.replay (Indices.move es) moves ⟨0, 0⟩).1 ∧
      (Action.replay Move.act moves c).2.Shows es
        (Action.replay (Indices.move es) moves ⟨0, 0⟩).2 ∧
      ∀ e, .error e ∈ (Action.replay Move.act moves c).1 → e.kind = .malformedStream := by
  obtain ⟨c, hload, hmarked, _⟩ := exists_loadedAt_place hes rest (Nat.zero_le _) 0
  have hfollows : c.Follows es rest ⟨0, 0⟩ := ⟨Nat.zero_le _, Nat.zero_le _, hload, hmarked⟩
  refine ⟨c, ofBody_eq_ok_iff.mpr ⟨hload, hmarked⟩, fun moves => ?_⟩
  obtain ⟨hanswers, hend⟩ := Action.replay_of_related (R := Follows es rest)
    (fun m _ _ h => h.move hes m) hfollows moves
  refine ⟨hanswers, hend.shows hes, fun e he => ?_⟩
  rw [hanswers] at he
  exact kind_of_mem_replay he

/-- Two entries. -/
def twoEntries : List Entry := [⟨⟨[1]⟩, ⟨10⟩⟩, ⟨⟨[1, 300]⟩, ⟨11⟩⟩]

/-- A cursor that goes past the end, back, past the end again and remembers that; then it cannot go
back any more. -/
theorem moves_as_indices_twoEntries :
    ∃ c, ofBody (Entry.encodeBody twoEntries ++ [7]) = .ok c ∧
      (Action.replay Move.act
        [.advance, .mark, .advance, .advance, .reset, .advance, .mark, .reset, .advance] c).1 =
        [.ok (some ⟨⟨[1, 300]⟩, ⟨11⟩⟩), .ok none, .ok none, .ok none, .ok none, .ok none, .ok none,
          .error (.markPastLast (Entry.offset twoEntries 2)), .ok none] := by
  have hes : ∀ e ∈ twoEntries, e.Storable := by
    simp [twoEntries, Entry.Storable, NodeId.Valid, UInt32.size]
  obtain ⟨c, hc, hmoves⟩ := moves_as_indices hes [7]
  exact ⟨c, hc, (hmoves _).1⟩

end Cursor

end XmlIndex
