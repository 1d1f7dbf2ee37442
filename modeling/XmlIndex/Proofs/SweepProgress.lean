import XmlIndex.Proofs.SweepPairs

/-! # A sweep comes to its end on any input

Nothing is assumed here of the bytes of a body, nor of the ancestors: the bytes may break off, the
entries in them need not ascend, and the ancestors may be in any order, repeat each other or be
the end of the document.

A step that goes on has either gone on to the next ancestor (`Sweep.Raises`) or read at least one
more byte (`Sweep.Forwards`), and the cursor goes back only on the way to another ancestor
(`Sweep.raises_or_forwards`).  So every iteration takes something from one number, the weight of
what remains (`Sweep.weight_lt_of_step`), and after `n + 1` iterations for each ancestor of a body
of `n` bytes the loop is left (`Sweep.run_leaves`). -/

namespace XmlIndex

namespace Cursor

variable {c c' : Cursor} {e : Entry} {e? : Option Entry}

/-- Reading on stays in the body. -/
theorem data_of_advance (h : advance c = .ok e? c') : c'.input.data = c.input.data := by
  cases hc : c.current? with
  | none =>
    obtain ⟨_, rfl⟩ := EStateM.Result.ok.inj ((advance_of_current?_eq_none hc).symm.trans h)
    rfl
  | some e => exact ((advance_eq_ok_iff hc).mp h).1.data_input

/-- Wherever the mark is, a cursor that goes back to it stays in its body. -/
theorem data_of_reset (h : reset c = .ok () c') : c'.input.data = c.input.data := by
  by_cases hle : c.marked ≤ c.input.data.length
  · have hplace := (reset_eq_ok_iff
      (i := ⟨c.input.data, c.marked, c.input.data.drop c.marked, rfl, hle⟩) rfl rfl).mp h
    exact hplace.1.data_input
  · -- A mark behind the last byte cannot be gone back to.
    rw [reset, Action.get_bind] at h
    obtain ⟨_, _, hseek, _⟩ := Action.bind_eq_ok_iff.mp h
    obtain ⟨_, hseek, _⟩ := Action.on_eq_ok_iff.mp hseek
    rw [Input.seek, dif_neg hle] at hseek
    cases hseek

/-- A step onto an entry takes bytes. -/
theorem pos_lt_of_advance (h : advance c = .ok (some e) c') : c.input.pos < c'.input.pos := by
  have hleft := advance_left h
  rw [left, left, Input.left_eq, Input.left_eq, data_of_advance h] at hleft
  omega

/-- The cursor goes back to its mark, from where it stands or once it has come to the end. -/
def Rewinds (c c' : Cursor) : Prop :=
  reset c = .ok () c' ∨ ∃ c₁, advance c = .ok none c₁ ∧ reset c₁ = .ok () c'

/-- Going back stays in the body. -/
theorem Rewinds.data_eq (h : c.Rewinds c') : c'.input.data = c.input.data := by
  obtain hreset | ⟨c₁, hadvance, hreset⟩ := h
  · exact data_of_reset hreset
  · exact (data_of_reset hreset).trans (data_of_advance hadvance)

end Cursor

namespace Sweep

variable {j : JoinStep} {s s' s'' : Sweep} {n : Nat}

/-! ## One iteration -/

/-- The sweep has gone on to the next ancestor.  The cursor has stayed, with its mark where it was
or at the entry, or it has gone back. -/
structure Raises (s s' : Sweep) : Prop where
  later_eq : s.later = s'.ancestor :: s'.later
  cursor : s'.cursor = s.cursor ∨ s'.cursor = s.cursor.mark ∨ s.cursor.Rewinds s'.cursor

/-- The sweep has gone on to the next entry of the same ancestor.  The cursor has done nothing but
read on, and that took bytes. -/
structure Forwards (s s' : Sweep) : Prop where
  ancestor_eq : s'.ancestor = s.ancestor
  later_eq : s'.later = s.later
  advanced : ∃ e, Cursor.advance s.cursor = .ok (some e) s'.cursor
  pos_lt : s.cursor.input.pos < s'.cursor.input.pos

/-- Going on to the next ancestor stays in the body. -/
theorem Raises.data_eq (h : s.Raises s') : s'.cursor.input.data = s.cursor.input.data := by
  obtain hstay | hmark | hback := h.cursor
  · rw [hstay]
  · rw [hmark, Cursor.mark]
  · exact hback.data_eq

/-- Going on to the next entry stays in the body. -/
theorem Forwards.data_eq (h : s.Forwards s') : s'.cursor.input.data = s.cursor.input.data := by
  obtain ⟨e, hadvance⟩ := h.advanced
  exact Cursor.data_of_advance hadvance

/-- A sweep that goes back goes on to the next ancestor. -/
theorem raises_of_rewindTo {c : Cursor} {next : NodeRef} {later : List NodeRef}
    (hl : s.later = next :: later) (hcursor : s.cursor = c ∨ Cursor.advance s.cursor = .ok none c)
    (h : { s with cursor := c }.rewindTo next later = .ok (.more s')) : s.Raises s' := by
  simp only [rewindTo] at h
  split at h
  · next c' hreset =>
    obtain rfl := Turn.more.inj (Except.ok.inj h)
    refine ⟨hl, .inr (.inr ?_)⟩
    -- The cursor may have come to the end of the body before it goes back.
    obtain rfl | hadvance := hcursor
    · exact .inl hreset
    · exact .inr ⟨c, hadvance, hreset⟩
  · cases h

/-- Behind the last entry the sweep goes on to the next ancestor, if at all. -/
theorem raises_or_forwards_of_nextEntry (h : s.nextEntry = .ok (.more s')) :
    s.Raises s' ∨ s.Forwards s' := by
  simp only [nextEntry] at h
  split at h
  · cases h
  · next e c hadvance =>
    obtain rfl := Turn.more.inj (Except.ok.inj h)
    exact .inr ⟨rfl, rfl, ⟨e, hadvance⟩, Cursor.pos_lt_of_advance hadvance⟩
  · next c hadvance =>
    -- At the end of the body the sweep goes on to a nested ancestor only.
    split at h
    · cases h
    · next next later hl =>
      split at h
      · exact .inl (raises_of_rewindTo hl (.inr hadvance) h)
      · cases h

/-- A sweep that leaves its ancestor goes on to the next one. -/
theorem raises_of_nextAncestor (h : s.nextAncestor = .ok (.more s')) : s.Raises s' := by
  simp only [nextAncestor] at h
  split at h
  · cases h
  · next next later hl =>
    -- It is nested in the ancestor that is left, in the window alone, or in neither.
    split at h
    · exact raises_of_rewindTo hl (.inl rfl) h
    · split at h
      · obtain rfl := Turn.more.inj (Except.ok.inj h)
        exact ⟨hl, .inl rfl⟩
      · obtain rfl := Turn.more.inj (Except.ok.inj h)
        exact ⟨hl, .inr (.inl rfl)⟩

/-- An iteration that does not leave the loop goes on to the next ancestor or reads on. -/
theorem raises_or_forwards (h : s.step j = .ok (.more s')) : s.Raises s' ∨ s.Forwards s' := by
  simp only [step] at h
  split at h
  · cases h
  · split at h
    · -- The results have no part in where the sweep goes.
      obtain hraises | hforwards := raises_or_forwards_of_nextEntry h
      · exact .inl ⟨hraises.later_eq, hraises.cursor⟩
      · exact .inr ⟨hforwards.ancestor_eq, hforwards.later_eq, hforwards.advanced,
          hforwards.pos_lt⟩
    · split at h
      · exact .inl (raises_of_nextAncestor h)
      · exact raises_or_forwards_of_nextEntry h

/-- Every step stays in the body. -/
theorem data_of_step (h : s.step j = .ok (.more s')) :
    s'.cursor.input.data = s.cursor.input.data := by
  obtain hraises | hforwards := raises_or_forwards h
  · exact hraises.data_eq
  · exact hforwards.data_eq

/-! ## All iterations -/

/-- Where so many iterations of the loop lead, or what it has come to before. -/
def iterate (j : JoinStep) : Nat → Sweep → Except Error Turn
  | 0, s => .ok (.more s)
  | n + 1, s =>
    match s.step j with
    | .ok (.more s') => iterate j n s'
    | left => left

/-- An iteration that does not leave the loop is followed by the others. -/
theorem iterate_of_more (h : s.step j = .ok (.more s')) :
    s.iterate j (n + 1) = s'.iterate j n := by
  rw [iterate, h]

/-- An iteration in front: the loop was not left by it if it is not left by what follows. -/
theorem iterate_succ_eq_more_iff :
    s.iterate j (n + 1) = .ok (.more s'') ↔
      ∃ s', s.step j = .ok (.more s') ∧ s'.iterate j n = .ok (.more s'') := by
  rw [iterate]
  split
  · next s' hstep => simp [hstep]
  · next hleft =>
    constructor
    · exact fun h => absurd h (hleft s'')
    · rintro ⟨s', hstep, _⟩
      exact absurd hstep (hleft s')

/-- However often the loop was gone through, the sweep is in its body and at one of its ancestors,
and those behind this one are still to come. -/
theorem place_of_iterate (h : s.iterate j n = .ok (.more s')) :
    s'.cursor.input.data = s.cursor.input.data ∧
      ∃ index, (s.ancestor :: s.later).drop index = s'.ancestor :: s'.later := by
  -- Induction on the iterations, the first one taken from the front.
  induction n generalizing s with
  | zero =>
    obtain rfl := Turn.more.inj (Except.ok.inj h)
    exact ⟨rfl, 0, rfl⟩
  | succ n ih =>
    obtain ⟨s₁, hstep, hrest⟩ := iterate_succ_eq_more_iff.mp h
    obtain ⟨hdata, index, hindex⟩ := ih hrest
    refine ⟨hdata.trans (data_of_step hstep), ?_⟩
    obtain hraises | hforwards := raises_or_forwards hstep
    · exact ⟨index + 1, by rw [List.drop_succ_cons, hraises.later_eq, hindex]⟩
    · exact ⟨index, by rw [← hforwards.ancestor_eq, ← hforwards.later_eq, hindex]⟩

/-- What remains, as one number: an ancestor weighs more than all bytes of the body. -/
def weight (s : Sweep) : Nat :=
  s.later.length * (s.cursor.input.data.length + 1) + s.cursor.left

/-- No more is left than there is. -/
theorem left_le_length (c : Cursor) : c.left ≤ c.input.data.length := by
  rw [Cursor.left, Input.left_eq]
  exact Nat.sub_le _ _

/-- There is less to weigh than ancestors times bytes, with one byte more for the end. -/
theorem weight_lt (s : Sweep) :
    s.weight < (s.ancestor :: s.later).length * (s.cursor.input.data.length + 1) := by
  have hleft := left_le_length s.cursor
  rw [weight, List.length_cons, Nat.succ_mul]
  omega

/-- Every iteration takes something from the weight. -/
theorem weight_lt_of_step (h : s.step j = .ok (.more s')) : s'.weight < s.weight := by
  have hdata := data_of_step h
  rw [weight, weight, hdata]
  obtain hraises | hforwards := raises_or_forwards h
  · -- However far the cursor went back, one ancestor fewer makes up for it.
    have hleft := left_le_length s'.cursor
    rw [hdata] at hleft
    rw [hraises.later_eq, List.length_cons, Nat.succ_mul]
    omega
  -- Reading on takes bytes and leaves the ancestors.
  · obtain ⟨e, hadvance⟩ := hforwards.advanced
    rw [hforwards.later_eq]
    exact Nat.add_lt_add_left (Cursor.advance_left hadvance) _

/-- With more iterations than it weighs, a sweep has left the loop, with its answer or failure. -/
theorem iterate_of_weight_lt (h : s.weight < n) : s.iterate j n = (s.run j).map Turn.done := by
  -- Induction on the iterations, as each takes something from the weight.
  induction n generalizing s with
  | zero => exact absurd h (Nat.not_lt_zero _)
  | succ n ih =>
    cases hstep : s.step j with
    | error e => rw [iterate, hstep, run_of_error hstep, Except.map]
    | ok turn =>
      cases turn with
      | done found => rw [iterate, hstep, run_of_done hstep, Except.map]
      | more s' =>
        have hlt := weight_lt_of_step hstep
        rw [iterate_of_more hstep, run_of_more hstep, ih (by omega)]

/-- A sweep over any bytes and any ancestors comes to its end.  Every iteration that does not
leave the loop goes on to the next ancestor or reads at least one more byte of the body, and goes
back to the mark only when it goes on to the next ancestor.  After as many iterations as there are
ancestors times bytes, counting the end of the body as one more, the loop is left. -/
theorem run_leaves {body : Bytes} {c : Cursor} (hc : Cursor.ofBody body = .ok c) (j : JoinStep)
    (a : NodeRef) (later : List NodeRef) (found : NodeSet) :
    (∀ n s, (start c a later found).iterate j n = .ok (.more s) →
      s.cursor.input.data = body ∧
      (∃ index, (a :: later).drop index = s.ancestor :: s.later) ∧
      ∀ s', s.step j = .ok (.more s') → s.Raises s' ∨ s.Forwards s') ∧
    ∀ n, (a :: later).length * (body.length + 1) ≤ n →
      (start c a later found).iterate j n = ((start c a later found).run j).map Turn.done := by
  have hdata : (start c a later found).cursor.input.data = body := by
    have hload := (Cursor.ofBody_eq_ok_iff.mp hc).1
    exact hload.data_input
  refine ⟨fun n s h => ?_, fun n hn => iterate_of_weight_lt ?_⟩
  · obtain ⟨hplace, hindex⟩ := place_of_iterate h
    exact ⟨hplace.trans hdata, hindex, fun s' => raises_or_forwards⟩
  -- Each iteration makes the weight smaller, which bounds their number.
  · have hweight := weight_lt (start c a later found)
    rw [hdata] at hweight
    exact Nat.lt_of_lt_of_le hweight hn

/-! ## A body that breaks off, and ancestors in no order -/

/-- The nodes 1.1, 2 and 1.1 again, and then the beginning of another one. -/
def brokenBody : Bytes :=
  [2, 1, 1, 10, 0, 0, 0, 0, 0, 0, 0, 1, 2, 11, 0, 0, 0, 0, 0, 0, 0,
    2, 1, 1, 12, 0, 0, 0, 0, 0, 0, 0, 2, 1]

/-- A cursor at the front of this body. -/
def brokenCursor : Cursor where
  input := ⟨brokenBody, 11, brokenBody.drop 11, rfl, by decide⟩
  current? := some ⟨⟨[1, 1]⟩, ⟨10⟩⟩
  pos := 0
  marked := 0

/-- Ancestors in no order, one of which occurs twice, with the end of the document among them. -/
def disordered : List NodeRef :=
  [⟨[1, 1]⟩, .endOfDocument, ⟨[1, 1]⟩, ⟨[3]⟩].map fun node => { doc := 1, node }

/-- The elements at or below some nodes. -/
def elementsFrom : JoinStep where
  doc := 1
  type := .element
  axis := .descendantOrSelf
  contextId? := none

/-- The sweep goes back once, passes all ancestors but the last, and fails behind the entries. -/
theorem run_leaves_brokenBody : Cursor.ofBody brokenBody = .ok brokenCursor ∧
    (start brokenCursor { doc := 1, node := ⟨[1]⟩ } disordered .empty).run elementsFrom =
      .error (.levelsMissing 2) := by
  have hc : Cursor.ofBody brokenBody = .ok brokenCursor := rfl
  obtain ⟨_, hleaves⟩ := run_leaves hc elementsFrom { doc := 1, node := ⟨[1]⟩ } disordered .empty
  -- There are five ancestors and 34 bytes, so 175 iterations are enough.
  have hfails : ((start brokenCursor { doc := 1, node := ⟨[1]⟩ } disordered .empty).iterate
      elementsFrom 175).map (fun _ => ()) = .error (.levelsMissing 2) := by
    decide +kernel
  rw [hleaves 175 (by decide)] at hfails
  refine ⟨hc, ?_⟩
  cases hrun : (start brokenCursor { doc := 1, node := ⟨[1]⟩ } disordered .empty).run
      elementsFrom with
  | ok found =>
    rw [hrun] at hfails
    cases hfails
  | error e =>
    rw [hrun] at hfails
    exact congrArg Except.error (Except.error.inj hfails)

end Sweep

end XmlIndex
