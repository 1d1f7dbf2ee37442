import XmlIndex.Proofs.SweepNestedLoop

/-! # Sweeps over bodies that break off

`entries` decodes a body as a whole and looks at all of it.  A sweep reads it entry by entry and
stops once it has come to the end of the ancestors, so a fault farther behind stays unseen.  Here
nothing is assumed of the body, not even that its entries ascend.

A reader comes from the front of a body to certain places of it (`Entry.Reaches`).  The entries it
meets on its way are those in front of the closing mark or of the first fault (`Entry.met`).  A
body serves some ancestors (`Entry.Serves`) if there is no fault in front of the closing mark, or
if one of the entries met lies behind everything below all of these ancestors.  That is exactly
when a sweep succeeds (`Sweep.run_ok_iff`): it has left the last ancestor at such an entry if it
did not see the closing mark, and it never goes past such an entry while there is an ancestor.

What is behind the closing mark and whether the header counts the entries right is seen by
`entries` alone. -/

namespace XmlIndex

open Input

namespace Entry

/-! ## What a reader meets -/

/-- The entries in front of the closing mark or of the first fault. -/
def met (i : Input) : List Entry :=
  match _h : read? i with
  | .ok (some e) i' => e :: met i'
  | _ => []
termination_by i.left
decreasing_by exact read?_left _h

/-- There is no fault in front of the closing mark. -/
def Closes (i : Input) : Prop := ∃ es i', readAll i = .ok es i'

/-- A reader comes from one place to another, entry by entry. -/
inductive Reaches (start : Input) : Input → Prop where
  | here : Reaches start start
  | next {i i' : Input} {e : Entry} : Reaches start i → read? i = .ok (some e) i' →
      Reaches start i'

/-- A reader of the body comes to the closing mark, or to an entry behind everything below the
ancestors. -/
def Serves (ancestors : List NodeRef) (i : Input) : Prop :=
  Closes i ∨ ∃ m ∈ met i, ∀ a ∈ ancestors, m.node.IsPast a.node

variable {start i i' : Input} {e m : Entry} {a : NodeRef} {ancestors : List NodeRef}

/-- An entry that can be read is met, and then what follows it. -/
theorem met_of_read? (h : read? i = .ok (some e) i') : met i = e :: met i' := by
  rw [met]
  split <;> simp_all

/-- At the closing mark there is no fault to come. -/
theorem closes_of_read?_none (h : read? i = .ok none i') : Closes i :=
  ⟨[], i', readAll_eq_ok_nil_iff.mpr h⟩

/-- A body that is read as a whole closes. -/
theorem closes_of_takes {body : Bytes} {es : List Entry} (h : Takes readAll body es) :
    Closes (.ofBytes body) := by
  obtain ⟨i', hread, _, _⟩ := h (.ofBytes body) [] (List.append_nil body).symm
  exact ⟨es, i', hread⟩

/-- Whether a body closes is decided behind its first entry. -/
theorem closes_iff_of_read? (h : read? i = .ok (some e) i') : Closes i ↔ Closes i' := by
  constructor
  · rintro ⟨es, i'', ha⟩
    obtain ⟨hn, _⟩ | ⟨e', i₁, rest, hs, ha', _⟩ := readAll_eq_ok_iff.mp ha
    · cases h.symm.trans hn
    · obtain ⟨_, rfl⟩ := EStateM.Result.ok.inj (h.symm.trans hs)
      exact ⟨rest, i'', ha'⟩
  · rintro ⟨rest, i'', ha⟩
    exact ⟨e :: rest, i'', readAll_eq_ok_cons_iff.mpr ⟨i', h, ha⟩⟩

/-- Where a body serves any ancestors, an entry or the closing mark can be read. -/
theorem Serves.exists_read? (h : Serves ancestors i) : ∃ e? i', read? i = .ok e? i' := by
  rcases h with ⟨es, i', ha⟩ | ⟨m, hm, _⟩
  · obtain ⟨hn, _⟩ | ⟨e, i₁, _, hs, _⟩ := readAll_eq_ok_iff.mp ha
    · exact ⟨none, i', hn⟩
    · exact ⟨some e, i₁, hs⟩
  · rw [met] at hm
    split at hm
    · next e i' hr => exact ⟨some e, i', hr⟩
    · cases hm

/-- A reader goes on from an entry that is not itself behind everything. -/
theorem Serves.next (h : Serves ancestors i) (hr : read? i = .ok (some e) i') (ha : a ∈ ancestors)
    (he : ¬ e.node.IsPast a.node) : Serves ancestors i' := by
  rcases h with hclosed | ⟨m, hm, hpast⟩
  · exact .inl ((closes_iff_of_read? hr).mp hclosed)
  · rw [met_of_read? hr] at hm
    rcases List.mem_cons.mp hm with rfl | hm
    · exact absurd (hpast a ha) he
    · exact .inr ⟨m, hm, hpast⟩

/-- What lies behind everything below an ancestor is enough for one more: either the entry that
serves the others is behind it, too, or `e` lies farther behind. -/
theorem Serves.cons (h : Serves ancestors i) (he : e ∈ met i) (hpast : e.node.IsPast a.node) :
    Serves (a :: ancestors) i := by
  rcases h with hclosed | ⟨m, hm, hall⟩
  · exact .inl hclosed
  -- Either one entry serves all of them, or the one farther behind does.
  · by_cases hma : m.node.IsPast a.node
    · exact .inr ⟨m, hm, List.forall_mem_cons.mpr ⟨hma, hall⟩⟩
    · have hlt : m.node < e.node := NodeId.lt_of_not_isPast hma hpast.1 hpast.not_isDescendantOf
      exact .inr ⟨e, he, List.forall_mem_cons.mpr
        ⟨hpast, fun b hb => (hall b hb).of_le (Std.le_of_lt hlt)⟩⟩

namespace Reaches

/-- A reader stays in its body. -/
theorem data (h : Reaches start i) : i.data = start.data := by
  induction h with
  | here => rfl
  | next _ hr ih =>
    obtain ⟨_, _, hd, _⟩ := isLocal_read? _ _ _ hr
    exact hd.trans ih

/-- Whether a body closes is decided behind every place that is reached. -/
theorem closes_iff (h : Reaches start i) : Closes start ↔ Closes i := by
  induction h with
  | here => exact .rfl
  | next _ hr ih => exact ih.trans (closes_iff_of_read? hr)

/-- What is met from a place that is reached is met from the start. -/
theorem met_subset (h : Reaches start i) : met i ⊆ met start := by
  induction h with
  | here => exact List.Subset.refl _
  | next _ hr ih =>
    refine List.Subset.trans ?_ ih
    rw [met_of_read? hr]
    exact List.subset_cons_self _ _

/-- An entry at a place that is reached is met. -/
theorem mem_met (h : Reaches start i) (hr : read? i = .ok (some e) i') : e ∈ met start :=
  h.met_subset (by rw [met_of_read? hr]; exact List.mem_cons_self)

end Reaches

/-! ## Bodies that break off -/

/-- Entries that can be written are met, and behind them the reader goes on. -/
theorem exists_reaches_of_rest {es : List Entry} {rest : Bytes} (hes : ∀ e ∈ es, e.Storable)
    (hrest : i.rest = es.flatMap encode ++ rest) :
    ∃ i', i'.rest = rest ∧ Reaches i i' ∧ met i = es ++ met i' := by
  -- The place that was reached so far is kept as a start of its own.
  suffices h : ∀ start, Reaches start i →
      ∃ i', i'.rest = rest ∧ Reaches start i' ∧ met i = es ++ met i' from h i .here
  induction es generalizing i with
  | nil => exact fun start h => ⟨i, hrest, h, rfl⟩
  | cons e es ih =>
    intro start h
    obtain ⟨he, hes⟩ := List.forall_mem_cons.mp hes
    rw [List.flatMap_cons, List.append_assoc] at hrest
    obtain ⟨i₁, hr, _, hrest₁⟩ := takes_read? he i _ hrest
    obtain ⟨i', hi', hreach, hmet⟩ := ih hes hrest₁ start (h.next hr)
    exact ⟨i', hi', hreach, by rw [met_of_read? hr, hmet, List.cons_append]⟩

/-- Nothing can be read behind the last byte. -/
theorem read?_of_rest_eq_nil (h : i.rest = []) : ∀ e? i', read? i ≠ .ok e? i' := by
  intro e? i' hr
  have hleft := read?_left hr
  rw [Input.left, Input.left, h] at hleft
  exact absurd hleft (Nat.not_lt_zero _)

/-- A body without its closing mark: a reader meets all of its entries, and then there is a
fault. -/
theorem met_brokenOff {es : List Entry} (hes : ∀ e ∈ es, e.Storable) :
    met (.ofBytes (es.flatMap encode)) = es ∧ ¬ Closes (.ofBytes (es.flatMap encode)) := by
  obtain ⟨i', hrest, hreach, hmet⟩ := exists_reaches_of_rest (i := .ofBytes (es.flatMap encode))
    hes (List.append_nil _).symm
  have hfault := read?_of_rest_eq_nil hrest
  -- Behind the last entry nothing can be read.
  have hnone : met i' = [] := by
    rw [met]
    split
    · next e i'' hr => exact absurd hr (hfault _ _)
    · rfl
  refine ⟨by rw [hmet, hnone, List.append_nil], fun hclosed => ?_⟩
  obtain ⟨es', i'', ha⟩ := hreach.closes_iff.mp hclosed
  obtain ⟨hr, _⟩ | ⟨_, _, _, hr, _⟩ := readAll_eq_ok_iff.mp ha
  · exact hfault _ _ hr
  · exact hfault _ _ hr

end Entry

namespace Sweep

variable {j : JoinStep} {start i : Input} {s s' : Sweep} {turn : Turn} {entry : Entry}
  {next : NodeRef} {later all : List NodeRef}

/-! ## What a sweep that succeeds has met -/

/-- The sweep stands at a place of the body and remembers one. -/
structure Within (start : Input) (s : Sweep) : Prop where
  here : ∃ i, Entry.Reaches start i ∧ s.cursor.LoadedAt i
  marked : ∃ i, Entry.Reaches start i ∧ i.pos = s.cursor.marked

/-- A turn to the end has met what serves the ancestors of `s`, and one to another sweep leaves
only what serves the ancestors of that one to be met. -/
def Turn.Meets (start : Input) (s : Sweep) : Turn → Prop
  | .more s' => s'.Within start ∧
      (Entry.Serves (s'.ancestor :: s'.later) start → Entry.Serves (s.ancestor :: s.later) start)
  | .done _ => Entry.Serves (s.ancestor :: s.later) start

/-- The entry at which a sweep stands was met. -/
theorem Within.mem_met (h : s.Within start) (hcur : s.cursor.current? = some entry) :
    entry ∈ Entry.met start := by
  obtain ⟨i, hreach, hload⟩ := h.here
  exact hreach.mem_met (hcur ▸ hload.2)

/-- Back at the mark, the sweep stands at a place of the body, with one ancestor fewer. -/
theorem Within.rewindTo (h : s.Within start) (hd : s.cursor.input.data = start.data)
    (hr : s.rewindTo next later = .ok turn) :
    ∃ s', turn = .more s' ∧ s'.Within start ∧ s'.ancestor = next ∧ s'.later = later := by
  -- The mark was set at a place that the sweep had reached.
  obtain ⟨i, hreach, hp⟩ := h.marked
  simp only [Sweep.rewindTo] at hr
  split at hr
  · next c hreset =>
    obtain ⟨hload, hmark, _⟩ :=
      (Cursor.reset_eq_ok_iff (hreach.data.trans hd.symm) hp).mp hreset
    obtain rfl := Except.ok.inj hr
    exact ⟨_, rfl, ⟨⟨i, hreach, hload⟩, i, hreach, hp.trans hmark.symm⟩, rfl, rfl⟩
  · cases hr

/-- Going on to the next entry; the results have no part in where the sweep stands. -/
theorem Within.nextEntry (h : s.Within start) (hcur : s.cursor.current? = some entry)
    (found : NodeSet) (hn : { s with found }.nextEntry = .ok turn) : turn.Meets start s := by
  obtain ⟨i, hreach, hload⟩ := h.here
  obtain ⟨im, hreachm, hpos⟩ := h.marked
  -- The place behind the entry is reached from the front of the body, too.
  -- One more entry has been read from the front of the body.
  have hreach' := hreach.next (hcur ▸ hload.2)
  simp only [Sweep.nextEntry] at hn
  split at hn
  · cases hn
  · next e c hadvance =>
    obtain ⟨hload', hmark, _⟩ := (Cursor.advance_eq_ok_iff hcur).mp hadvance
    obtain rfl := Except.ok.inj hn
    exact ⟨⟨⟨_, hreach', hload'⟩, im, hreachm, hpos.trans hmark.symm⟩, id⟩
  · next c hadvance =>
    obtain ⟨hload', hmark, hcur'⟩ := (Cursor.advance_eq_ok_iff hcur).mp hadvance
    -- The closing mark has been seen, which serves any ancestors.
    have hclosed : Entry.Closes start :=
      hreach'.closes_iff.mpr (Entry.closes_of_read?_none (hcur' ▸ hload'.2))
    have hdata := hload'.data_input.trans hreach'.data
    split at hn
    · obtain rfl := Except.ok.inj hn
      exact .inl hclosed
    -- The sweep may go back for the next ancestor, or it ends.
    · split at hn
      · obtain ⟨s', rfl, hs', _, _⟩ := Within.rewindTo (s := { s with cursor := c, found })
          ⟨⟨_, hreach', hload'⟩, im, hreachm, hpos.trans hmark.symm⟩ hdata hn
        exact ⟨hs', fun _ => .inl hclosed⟩
      · obtain rfl := Except.ok.inj hn
        exact .inl hclosed

/-- Going on to the next ancestor, after an entry that is past this one. -/
theorem Within.nextAncestor (h : s.Within start) (hcur : s.cursor.current? = some entry)
    (hpast : entry.node.IsPast s.ancestor.node) (hn : s.nextAncestor = .ok turn) :
    turn.Meets start s := by
  have hmet := h.mem_met hcur
  obtain ⟨i, hreach, hload⟩ := h.here
  have hdata := hload.data_input.trans hreach.data
  simp only [Sweep.nextAncestor] at hn
  cases hl : s.later with
  -- There is no other ancestor, and the entry past the last one was met.
  | nil =>
    rw [hl] at hn
    obtain rfl := Except.ok.inj hn
    rw [Turn.Meets, hl]
    exact .inr ⟨entry, hmet, List.forall_mem_singleton.mpr hpast⟩
  | cons next later =>
    -- What serves the others, together with this entry, serves this ancestor as well.
    have hback : Entry.Serves (next :: later) start →
        Entry.Serves (s.ancestor :: s.later) start := fun hs => hl ▸ hs.cons hmet hpast
    rw [hl] at hn
    simp only at hn
    split at hn
    -- It goes back to the mark.
    · obtain ⟨s', rfl, hs', ha, hlater⟩ := h.rewindTo hdata hn
      exact ⟨hs', by rwa [ha, hlater]⟩
    · split at hn
      · obtain rfl := Except.ok.inj hn
        exact ⟨⟨⟨i, hreach, hload⟩, h.marked⟩, hback⟩
      · obtain rfl := Except.ok.inj hn
        exact ⟨⟨⟨i, hreach, hload⟩, i, hreach, hload.1⟩, hback⟩

/-- A step of a sweep meets what it relies on. -/
theorem Within.step (h : s.Within start) (hstep : s.step j = .ok turn) : turn.Meets start s := by
  simp only [Sweep.step] at hstep
  cases hcur : s.cursor.current? with
  | none =>
    -- The cursor stands behind the closing mark.
    obtain ⟨i, hreach, hload⟩ := h.here
    rw [hcur] at hstep
    obtain rfl := Except.ok.inj hstep
    exact .inl (hreach.closes_iff.mpr (Entry.closes_of_read?_none (hcur ▸ hload.2)))
  | some entry =>
    rw [hcur] at hstep
    cases hr : entry.node.relationTo? s.ancestor.node with
    | some relation =>
      simp only [hr] at hstep
      exact h.nextEntry hcur _ hstep
    | none =>
      simp only [hr] at hstep
      split at hstep
      · next hlt => exact h.nextAncestor hcur ⟨NodeId.isLT_compare_iff.mp hlt, hr⟩ hstep
      · exact h.nextEntry hcur s.found hstep

/-- A sweep that succeeds has met what serves its ancestors. -/
theorem Within.run {found : NodeSet} (h : s.Within start) (hrun : s.run j = .ok found) :
    Entry.Serves (s.ancestor :: s.later) start := by
  -- Induction on the steps of the run, from the last one back.
  induction s using Sweep.run.induct j with
  | case1 s e hstep => cases (run_of_error hstep).symm.trans hrun
  | case2 s found' hstep => exact h.step hstep
  | case3 s s' hstep ih =>
    obtain ⟨hs', hback⟩ := h.step hstep
    exact hback (ih hs' (run_of_more hstep ▸ hrun))

/-! ## When a sweep cannot fail -/

/-- The cursor remembers an entry of its body, and from there the body serves the ancestors. -/
def MarkServes (all : List NodeRef) (c : Cursor) : Prop :=
  ∃ i e i', i.data = c.input.data ∧ i.pos = c.marked ∧ Entry.read? i = .ok (some e) i' ∧
    Entry.Serves all i

/-- What is remembered serves as long as body and mark stay. -/
theorem MarkServes.of_eq {c c' : Cursor} (h : MarkServes all c) (hd : c'.input.data = c.input.data)
    (hm : c'.marked = c.marked) : MarkServes all c' := by
  obtain ⟨i, e, i', hdata, hpos, hr, hserves⟩ := h
  exact ⟨i, e, i', hdata.trans hd.symm, hpos.trans hm.symm, hr, hserves⟩

/-- From the entry at which the sweep stands, and from the one it remembers, the body serves all
of the ancestors. -/
structure Safe (all : List NodeRef) (s : Sweep) : Prop where
  here : ∃ i, s.cursor.LoadedAt i ∧ s.cursor.current?.isSome ∧ Entry.Serves all i
  marked : MarkServes all s.cursor
  subset : s.ancestor :: s.later ⊆ all

/-- The step goes on with a safe sweep, or to the end. -/
def Turn.IsSafe (all : List NodeRef) : Except Error Turn → Prop
  | .ok (.more s) => s.Safe all
  | .ok (.done _) => True
  | .error _ => False

/-- Going back to what is remembered is safe. -/
theorem isSafe_rewindTo (hm : MarkServes all s.cursor) (hsub : next :: later ⊆ all) :
    Turn.IsSafe all (s.rewindTo next later) := by
  obtain ⟨i, e, i', hd, hp, hr, hserves⟩ := hm
  have hload : Cursor.LoadedAt ⟨i', some e, i.pos, s.cursor.marked⟩ i := ⟨rfl, hr⟩
  have hreset := (Cursor.reset_eq_ok_iff hd hp).mpr ⟨hload, rfl, rfl⟩
  simp only [Sweep.rewindTo, hreset]
  exact ⟨⟨i, hload, rfl, hserves⟩, ⟨i, e, i', hload.data_input.symm, hp, hr, hserves⟩, hsub⟩

/-- A safe sweep can go on from an entry that is not past the ancestor, as that is not the one
that lies behind everything. -/
theorem Safe.nextEntry (h : s.Safe all) (hcur : s.cursor.current? = some entry)
    (he : ¬ entry.node.IsPast s.ancestor.node) (found : NodeSet) :
    Turn.IsSafe all { s with found }.nextEntry := by
  obtain ⟨i, hload, _, hserves⟩ := h.here
  have hserves' := hserves.next (hcur ▸ hload.2) (h.subset List.mem_cons_self) he
  -- As the body serves the ancestors, the next reading cannot fail.
  obtain ⟨e?, i', hr⟩ := hserves'.exists_read?
  have hload' : Cursor.LoadedAt ⟨i', e?, s.cursor.input.pos, s.cursor.marked⟩ s.cursor.input :=
    ⟨rfl, hr⟩
  have hadvance := (Cursor.advance_eq_ok_iff hcur).mpr ⟨hload', rfl, rfl⟩
  have hmarked := h.marked.of_eq hload'.data_input rfl
  simp only [Sweep.nextEntry, hadvance]
  cases e? with
  | some e => exact ⟨⟨_, hload', rfl, hserves'⟩, hmarked, h.subset⟩
  -- This was the last entry; the sweep goes back for the next ancestor or ends.
  | none =>
    simp only
    cases hl : s.later with
    | nil => trivial
    | cons next later =>
      simp only
      split
      · exact isSafe_rewindTo hmarked fun a ha => h.subset (List.mem_cons_of_mem _ (hl ▸ ha))
      · trivial

/-- Going on to the next ancestor is safe. -/
theorem Safe.nextAncestor (h : s.Safe all) : Turn.IsSafe all s.nextAncestor := by
  simp only [Sweep.nextAncestor]
  cases hl : s.later with
  | nil => trivial
  | cons next later =>
    have hsub : next :: later ⊆ all := fun a ha => h.subset (List.mem_cons_of_mem _ (hl ▸ ha))
    simp only
    split
    -- The next one may have entries that were passed already.
    · exact isSafe_rewindTo h.marked hsub
    · split
      · exact ⟨h.here, h.marked, hsub⟩
      · -- The mark is put at the entry the sweep stands at.
        obtain ⟨i, hload, hsome, hserves⟩ := h.here
        obtain ⟨e, he⟩ := Option.isSome_iff_exists.mp hsome
        exact ⟨⟨i, hload, hsome, hserves⟩,
          ⟨i, e, _, hload.data_input.symm, hload.1, he ▸ hload.2, hserves⟩, hsub⟩

/-- A step of a safe sweep is safe. -/
theorem Safe.step (h : s.Safe all) : Turn.IsSafe all (s.step j) := by
  obtain ⟨i, hload, hsome, hserves⟩ := h.here
  obtain ⟨entry, hcur⟩ := Option.isSome_iff_exists.mp hsome
  simp only [Sweep.step, hcur]
  -- The entry belongs to the ancestor, is past it, or in front of it.
  cases hr : entry.node.relationTo? s.ancestor.node with
  | some relation =>
    refine h.nextEntry hcur (fun hpast => ?_) _
    rw [hpast.2] at hr
    cases hr
  | none =>
    simp only
    split
    · exact h.nextAncestor
    · next hlt =>
      exact h.nextEntry hcur (fun hpast => hlt (NodeId.isLT_compare_iff.mpr hpast.1)) s.found

/-- A safe sweep comes to its end. -/
theorem Safe.run (h : s.Safe all) : ∃ found, s.run j = .ok found := by
  -- Induction along the sweep, which ends by its own measure.
  induction s using Sweep.run.induct j with
  | case1 s e hstep =>
    have hturn := h.step (j := j)
    rw [hstep] at hturn
    exact hturn.elim
  | case2 s found hstep => exact ⟨found, run_of_done hstep⟩
  | case3 s s' hstep ih =>
    have hturn := h.step (j := j)
    rw [hstep] at hturn
    rw [run_of_more hstep]
    exact ih hturn

/-- A sweep over a body succeeds exactly if the body serves the ancestors. -/
theorem run_ok_iff {body : Bytes} {c : Cursor} {a : NodeRef} {ancestors : List NodeRef}
    {found : NodeSet} (hc : Cursor.ofBody body = .ok c) :
    (∃ found', Sweep.run j
        { cursor := c.mark, ancestor := a, later := ancestors, window := a, found } =
      .ok found') ↔ Entry.Serves (a :: ancestors) (.ofBytes body) := by
  obtain ⟨hload, _⟩ := Cursor.ofBody_eq_ok_iff.mp hc
  constructor
  · rintro ⟨found', hrun⟩
    have hwithin : Within (.ofBytes body)
        { cursor := c.mark, ancestor := a, later := ancestors, window := a, found } :=
      ⟨⟨_, .here, hload⟩, _, .here, hload.1⟩
    exact hwithin.run hrun
  · intro hserves
    cases hcur : c.current? with
    -- An empty body has nothing to sweep.
    | none => exact ⟨found, run_of_done (by simp only [Sweep.step, Cursor.mark, hcur])⟩
    | some e =>
      have hsafe : Safe (a :: ancestors)
          { cursor := c.mark, ancestor := a, later := ancestors, window := a, found } :=
        ⟨⟨_, hload, by rw [Cursor.mark, hcur]; rfl, hserves⟩,
          ⟨_, e, _, hload.data_input.symm, hload.1, hcur ▸ hload.2, hserves⟩,
          List.Subset.refl _⟩
      exact hsafe.run

end Sweep

namespace Block

variable {b : Block} {ancestors : List NodeRef}

/-- What a join asks of a block: of one in document order, that it serves the ancestors, and of
another one, that it can be decoded. -/
def Joinable (ancestors : List NodeRef) (b : Block) : Prop :=
  match b.order with
  | .ordered => Entry.Serves ancestors (.ofBytes b.body)
  | .unordered => ∃ es, b.entries = .ok es

/-- A block that can be decoded can be joined. -/
theorem joinable_of_entries {es : List Entry} (h : b.entries = .ok es) : b.Joinable ancestors := by
  rw [Joinable]
  cases b.order with
  | ordered => exact .inl (Entry.closes_of_takes (entries_eq_ok_iff.mp h).1)
  | unordered => exact ⟨es, h⟩

end Block

namespace JoinStep

variable {b : Block} {ancestors : List NodeRef}

/-- A block is joined with success exactly if it is what a join asks for. -/
theorem joinBlock_ok_iff (j : JoinStep) (found : NodeSet) (hne : ancestors ≠ []) :
    (∃ found', j.joinBlock ancestors found b = .ok found') ↔ b.Joinable ancestors := by
  obtain ⟨a, later, rfl⟩ := List.exists_cons_of_ne_nil hne
  rw [Block.Joinable]
  simp only [joinBlock, Block.orderedCursor]
  cases b.order with
  | ordered =>
    simp only
    -- An ordered block is swept as it is stored.
    cases hc : Cursor.ofBody b.body with
    | ok c => exact Sweep.run_ok_iff hc
    -- Not even the first entry can be read, so the body serves nobody.
    | error e =>
      simp only [bind, Except.bind, reduceCtorEq, exists_false, false_iff]
      intro hserves
      obtain ⟨e?, i', hr⟩ := hserves.exists_read?
      have hload := Cursor.ofBody_eq_ok_iff.mpr
        (⟨⟨rfl, hr⟩, rfl⟩ : Cursor.LoadedAt ⟨i', e?, 0, 0⟩ (.ofBytes b.body) ∧ _)
      cases hc.symm.trans hload
  | unordered =>
    simp only
    cases hentries : b.entries with
    | error e => simp [bind, Except.bind]
    | ok es =>
      -- What was decoded is written anew, so there is nothing left to fail.
      have htakes := Block.takes_arrange hentries
      obtain ⟨c, hc, _⟩ := Cursor.ofBody_of_takes htakes
      have hserves : Entry.Serves (a :: later) _ := .inl (Entry.closes_of_takes htakes)
      simp only [bind, Except.bind, hc]
      exact iff_of_true ((Sweep.run_ok_iff hc).mpr hserves) ⟨es, rfl⟩

end JoinStep

end XmlIndex
