import Mathlib.Data.List.ProdSigma
import XmlIndex.Index.Join
import XmlIndex.Proofs.CursorPosition
import XmlIndex.Proofs.DocumentOrder

/-! # The pairs of a sweep

A sweep takes pairs of an ancestor and an entry into its results (`Sweep.pairs`), and the results
are what comes of these pairs (`Sweep.found_run`).  It looks at far fewer pairs than there are, but
it takes those on the axis, each once, one ancestor after the other (`JoinStep.pairs`), if the
entries and the ancestors come in document order.

The invariant is `Sweep.OnCourse`.  No entry that the cursor has passed lies behind the subtree of
the current ancestor, and those in front of the mark lie in front of the outermost ancestor in play.
So when the sweep leaves an ancestor, the entries to come are behind everything below it, and those
passed lie in front of the next one unless this is nested in the one that is left: then, and only
then, the sweep has to go back. -/

namespace XmlIndex

namespace JoinStep

/-! ## The pairs on an axis -/

/-- Whether a node stands on the axis of an ancestor. -/
def accepts (j : JoinStep) (ancestor : NodeRef) (node : NodeId) : Bool :=
  (node.relationTo? ancestor.node).any j.axis.accepts

/-- The pairs of an ancestor and an entry on its axis, one ancestor after the other. -/
def pairs (j : JoinStep) (ancestors : List NodeRef) (entries : List Entry) :
    List (NodeRef × Entry) :=
  (ancestors ×ˢ entries).filter fun pair => j.accepts pair.1 pair.2.node

/-- The results with a pair. -/
def take (j : JoinStep) (found : NodeSet) (pair : NodeRef × Entry) : NodeSet :=
  found.add (j.result pair.2 pair.1)

/-- The pairs of one ancestor. -/
def pairsOf (j : JoinStep) (a : NodeRef) (entries : List Entry) : List (NodeRef × Entry) :=
  (entries.filter (j.accepts a ·.node)).map (a, ·)

variable {j : JoinStep} {a : NodeRef}

/-- The pairs of the first ancestor come first. -/
theorem pairs_cons (as : List NodeRef) (entries : List Entry) :
    j.pairs (a :: as) entries = j.pairsOf a entries ++ j.pairs as entries := by
  rw [pairs, List.product_cons, List.filter_append, List.filter_map]
  rfl

/-- The pairs of an ancestor come in the order of the entries. -/
theorem pairsOf_append (es es' : List Entry) :
    j.pairsOf a (es ++ es') = j.pairsOf a es ++ j.pairsOf a es' := by
  rw [pairsOf, List.filter_append, List.map_append]
  rfl

/-- Nothing is on the axis of an ancestor that is not below it. -/
theorem pairsOf_of_forall {entries : List Entry}
    (h : ∀ e ∈ entries, e.node.relationTo? a.node = none) : j.pairsOf a entries = [] := by
  rw [pairsOf, List.map_eq_nil_iff, List.filter_eq_nil_iff]
  intro e he
  rw [accepts, h e he]
  exact Bool.false_ne_true

/-- An entry in front of a node is not below it. -/
theorem relationTo?_eq_none_of_lt {n m : NodeId} (h : n < m) : n.relationTo? m = none := by
  refine Option.not_isSome_iff_eq_none.mp fun hs => ?_
  exact Std.lt_irrefl (Std.lt_of_lt_of_le h (NodeId.le_of_relationTo? hs))

/-- Ancestors behind all entries have no pairs. -/
theorem pairs_of_lt {as : List NodeRef} {entries : List Entry}
    (h : ∀ a ∈ as, ∀ e ∈ entries, e.node < a.node) : j.pairs as entries = [] := by
  rw [pairs, List.filter_eq_nil_iff]
  rintro ⟨a, e⟩ hmem
  obtain ⟨ha, he⟩ := List.mem_product.mp hmem
  rw [accepts, relationTo?_eq_none_of_lt (h a ha e he)]
  exact Bool.false_ne_true

end JoinStep

namespace Sweep

variable {j : JoinStep} {s : Sweep} {turn : Turn}

/-! ## What a sweep takes in -/

/-- The pair that a step takes in, if there is one. -/
def pair? (j : JoinStep) (s : Sweep) : Option (NodeRef × Entry) :=
  (s.cursor.current?.filter (j.accepts s.ancestor ·.node)).map (s.ancestor, ·)

/-- The pairs that a sweep takes in, in order, up to its end or to where it fails. -/
def pairs (j : JoinStep) (s : Sweep) : List (NodeRef × Entry) :=
  (s.pair? j).toList ++
    match _h : s.step j with
    | .ok (.more s') => pairs j s'
    | _ => []
termination_by s.remaining
decreasing_by exact step_before _h

/-- A sweep fails where its next step does. -/
theorem run_of_error {e : Error} (h : s.step j = .error e) : s.run j = .error e := by
  rw [Sweep.run]
  split <;> simp_all

/-- A sweep is done where its next step is. -/
theorem run_of_done {found : NodeSet} (h : s.step j = .ok (.done found)) :
    s.run j = .ok found := by
  rw [Sweep.run]
  split <;> simp_all

/-- A sweep goes on behind its next step. -/
theorem run_of_more {s' : Sweep} (h : s.step j = .ok (.more s')) : s.run j = s'.run j := by
  rw [Sweep.run]
  split <;> simp_all

/-- The last step takes in its pair. -/
theorem pairs_of_done {found : NodeSet} (h : s.step j = .ok (.done found)) :
    s.pairs j = (s.pair? j).toList := by
  rw [Sweep.pairs]
  split <;> simp_all

/-- A step takes in its pair, and then the others theirs. -/
theorem pairs_of_more {s' : Sweep} (h : s.step j = .ok (.more s')) :
    s.pairs j = (s.pair? j).toList ++ s'.pairs j := by
  rw [Sweep.pairs]
  split <;> simp_all

/-- The results after a turn. -/
def Turn.found : Turn → NodeSet
  | .more s => s.found
  | .done found => found

/-- Going back takes nothing in. -/
theorem found_rewindTo {next : NodeRef} {later : List NodeRef}
    (h : s.rewindTo next later = .ok turn) : turn.found = s.found := by
  simp only [rewindTo] at h
  split at h
  · obtain rfl := Except.ok.inj h
    rfl
  · cases h

/-- Going on to the next entry takes nothing in. -/
theorem found_nextEntry (h : s.nextEntry = .ok turn) : turn.found = s.found := by
  simp only [nextEntry] at h
  split at h
  · cases h
  · obtain rfl := Except.ok.inj h
    rfl
  -- At the end of the body there may be a further ancestor to go back for.
  · split at h
    · obtain rfl := Except.ok.inj h
      rfl
    · split at h
      · have hfound := found_rewindTo h
        exact hfound
      · obtain rfl := Except.ok.inj h
        rfl

/-- Going on to the next ancestor takes nothing in. -/
theorem found_nextAncestor (h : s.nextAncestor = .ok turn) : turn.found = s.found := by
  simp only [nextAncestor] at h
  split at h
  · obtain rfl := Except.ok.inj h
    rfl
  · split at h
    · exact found_rewindTo h
    · split at h <;>
      · obtain rfl := Except.ok.inj h
        rfl

/-- The pair of a step is that of its ancestor and entry, if this is on the axis. -/
theorem pair?_of_current? {entry : Entry} (h : s.cursor.current? = some entry) :
    s.pair? j = if j.accepts s.ancestor entry.node then some (s.ancestor, entry) else none := by
  rw [pair?, h, Option.filter_some]
  split <;> rfl

/-- The results of a step are those before it, with the pair that it takes in. -/
theorem found_step (h : s.step j = .ok turn) :
    turn.found = (s.pair? j).toList.foldl j.take s.found := by
  simp only [step] at h
  split at h
  · next hcur =>
    obtain rfl := Except.ok.inj h
    rw [pair?, hcur]
    rfl
  · next entry hcur =>
    rw [pair?_of_current? hcur, JoinStep.accepts]
    -- Whether the entry is at or below the ancestor decides where the sweep goes.
    split at h
    · next relation hrelation =>
      rw [hrelation, Option.any_some, found_nextEntry h]
      dsimp only
      split <;> rfl
    · next hrelation =>
      rw [hrelation]
      split at h
      · exact found_nextAncestor h
      · exact found_nextEntry h

/-- The results of a sweep are those before it, with the pairs that it takes in. -/
theorem found_run {found : NodeSet} (h : s.run j = .ok found) :
    found = (s.pairs j).foldl j.take s.found := by
  -- Induction on the steps of the run: what the later ones take in stands behind the first pair.
  induction s using Sweep.run.induct j with
  | case1 s e hstep => cases (run_of_error hstep).symm.trans h
  | case2 s found' hstep =>
    obtain rfl := Except.ok.inj ((run_of_done hstep).symm.trans h)
    rw [pairs_of_done hstep]
    exact found_step hstep
  | case3 s s' hstep ih =>
    rw [pairs_of_more hstep, List.foldl_append, ← found_step hstep]
    exact ih ((run_of_more hstep).symm.trans h)

/-! ## The invariant -/

/-- The sweep stands at `entry` of the entries `seen ++ entry :: rest` in the body, with the
mark at `first` behind `early`; its ancestors ascend from its window on. -/
structure OnCourse (body : Bytes) (entries seen : List Entry) (entry : Entry)
    (rest early : List Entry) (first : Entry) (s : Sweep) : Prop where
  entries_eq : entries = seen ++ entry :: rest
  cursor_at : s.cursor.At body (entry :: rest)
  marked : ∃ more, entries = early ++ first :: more ∧ s.cursor.MarkedAt body (first :: more)
  ascending : (s.ancestor :: s.later).Pairwise fun a b => a.node < b.node
  window_le : s.window.node ≤ s.ancestor.node
  early_lt : ∀ e ∈ early, e.node < s.window.node
  not_past : ∀ e ∈ seen, ¬ e.node.IsPast s.ancestor.node

/-- The sweep is on its course, and these are the pairs that it still has to take in. -/
def Expects (j : JoinStep) (body : Bytes) (entries : List Entry) (s : Sweep)
    (pairs : List (NodeRef × Entry)) : Prop :=
  ∃ seen entry rest early first, s.OnCourse body entries seen entry rest early first ∧
    pairs = j.pairsOf s.ancestor (entry :: rest) ++ j.pairs s.later entries

/-- What a step comes to if these pairs are still to be taken in behind it. -/
def Turn.Leads (j : JoinStep) (body : Bytes) (entries : List Entry)
    (pairs : List (NodeRef × Entry)) : Except Error Turn → Prop
  | .ok (.more s) => s.Expects j body entries pairs
  | .ok (.done _) => pairs = []
  | .error _ => False

variable {body : Bytes} {entries seen rest early : List Entry} {entry first : Entry}
  {next : NodeRef} {later : List NodeRef}

/-! ## Steps -/

/-- Back at the mark, the next ancestor misses nothing: the entries in front of the mark lie
in front of it. -/
theorem OnCourse.rewindTo (h : s.OnCourse body entries seen entry rest early first)
    {c : Cursor} (hl : s.later = next :: later) (hc : c.input.data = body)
    (hm : c.marked = s.cursor.marked) (found : NodeSet) :
    Turn.Leads j body entries (j.pairs (next :: later) entries)
      ({ s with cursor := c, found }.rewindTo next later) := by
  obtain ⟨more, hentries, hmarked⟩ := h.marked
  obtain ⟨c', hreset, hat, hmark⟩ := (hmarked.of_marked_eq hm).reset hc
  have hasc := h.ascending
  rw [hl] at hasc
  obtain ⟨hfirst, hasc⟩ := List.pairwise_cons.mp hasc
  have hnext : s.ancestor.node < next.node := hfirst next List.mem_cons_self
  -- What stands in front of the mark is in front of the next ancestor as well.
  have hearly : ∀ e ∈ early, e.node < next.node := fun e he =>
    Std.lt_trans (Std.lt_of_lt_of_le (h.early_lt e he) h.window_le) hnext
  simp only [Sweep.rewindTo, hreset, Turn.Leads]
  refine ⟨early, first, more, early, first, ?_, ?_⟩
  · -- The cursor is back at the mark, and the mark stays.
    exact {
      entries_eq := hentries
      cursor_at := hat
      marked := ⟨more, hentries, hmarked.of_marked_eq (hmark.trans hm)⟩
      ascending := hasc
      window_le := Std.le_trans h.window_le (Std.le_of_lt hnext)
      early_lt := h.early_lt
      not_past := fun e he hp => Std.lt_irrefl (Std.lt_trans hp.1 (hearly e he)) }
  · have hnone : ∀ e ∈ early, e.node.relationTo? next.node = none :=
      fun e he => JoinStep.relationTo?_eq_none_of_lt (hearly e he)
    -- So nothing in front of the mark can be paired with it.
    have hpairs : j.pairsOf next entries = j.pairsOf next (first :: more) := by
      rw [hentries, JoinStep.pairsOf_append, JoinStep.pairsOf_of_forall hnone, List.nil_append]
    rw [JoinStep.pairs_cons, hpairs]

/-- The nodes passed lie in front of an ancestor that is not nested in the current one. -/
theorem OnCourse.lt_of_mem (h : s.OnCourse body entries seen entry rest early first)
    (hl : s.later = next :: later) (hnested : next.node.isDescendantOf s.ancestor.node = false) :
    ∀ e ∈ seen, e.node < next.node := by
  have hasc := h.ascending
  rw [hl] at hasc
  have hnext := (List.pairwise_cons.mp hasc).1 next List.mem_cons_self
  intro e he
  exact NodeId.lt_of_not_isPast (h.not_past e he) hnext (by simp [hnested])

/-- Going on from an entry that is not yet past the ancestor. -/
theorem OnCourse.nextEntry (h : s.OnCourse body entries seen entry rest early first)
    (hentry : ¬ entry.node.IsPast s.ancestor.node) (found : NodeSet) :
    Turn.Leads j body entries (j.pairsOf s.ancestor rest ++ j.pairs s.later entries)
      ({ s with found }.nextEntry) := by
  obtain ⟨c', hadvance, hat, hmark⟩ := h.cursor_at.advance
  have hseen : ∀ e ∈ seen ++ [entry], ¬ e.node.IsPast s.ancestor.node := by
    intro e he
    rcases List.mem_append.mp he with he | he
    · exact h.not_past e he
    · rw [List.mem_singleton.mp he]
      exact hentry
  rw [List.tail_cons] at hadvance hat
  simp only [Sweep.nextEntry, hadvance]
  cases rest with
  | cons entry' rest =>
    obtain ⟨more, hentries, hmarked⟩ := h.marked
    refine ⟨seen ++ [entry], entry', rest, early, first, ?_, rfl⟩
    -- The entry is passed now; mark and window are the same.
    exact {
      entries_eq := by rw [h.entries_eq, List.append_assoc]; rfl
      cursor_at := hat
      marked := ⟨more, hentries, hmarked.of_marked_eq hmark⟩
      ascending := h.ascending
      window_le := h.window_le
      early_lt := h.early_lt
      not_past := hseen }
  | nil =>
    -- No entry is left for this ancestor.
    have hnil : j.pairsOf s.ancestor [] = [] := rfl
    simp only [List.head?_nil, hnil, List.nil_append]
    cases hl : s.later with
    | nil => exact rfl
    | cons next later =>
      cases hnested : next.node.isDescendantOf s.ancestor.node with
      | true =>
        simp only [hnested, if_true]
        exact h.rewindTo hl hat.data_input hmark found
      | false =>
        simp only [hnested, Bool.false_eq_true, if_false, Turn.Leads]
        -- The last entry lies in front of the next ancestor, and so do all entries.
        have hasc := h.ascending
        rw [hl] at hasc
        obtain ⟨hfirst, hasc⟩ := List.pairwise_cons.mp hasc
        have hlt : ∀ e ∈ entries, e.node < next.node := by
          rw [h.entries_eq]
          intro e he
          exact NodeId.lt_of_not_isPast (hseen e he) (hfirst next List.mem_cons_self)
            (by simp [hnested])
        refine JoinStep.pairs_of_lt fun a ha e he => ?_
        rcases List.mem_cons.mp ha with rfl | ha
        · exact hlt e he
        · exact Std.lt_trans (hlt e he) ((List.pairwise_cons.mp hasc).1 a ha)

/-- Going on to the next ancestor once the entry is past the current one, below which nothing is
to come. -/
theorem OnCourse.nextAncestor (h : s.OnCourse body entries seen entry rest early first) :
    Turn.Leads j body entries (j.pairs s.later entries) s.nextAncestor := by
  have hasc := h.ascending
  cases hl : s.later with
  | nil =>
    simp only [Sweep.nextAncestor, hl]
    exact rfl
  | cons next later =>
    rw [hl] at hasc
    obtain ⟨hfirst, hasc⟩ := List.pairwise_cons.mp hasc
    have hnext : s.ancestor.node < next.node := hfirst next List.mem_cons_self
    simp only [Sweep.nextAncestor, hl]
    cases hnested : next.node.isDescendantOf s.ancestor.node with
    | true =>
      simp only [if_true]
      exact h.rewindTo hl h.cursor_at.data_input rfl s.found
    | false =>
      -- Not nested: the entries passed lie in front of the next ancestor.
      have hlt := h.lt_of_mem hl hnested
      have hnone : ∀ e ∈ seen, e.node.relationTo? next.node = none :=
        fun e he => JoinStep.relationTo?_eq_none_of_lt (hlt e he)
      have hpast : ∀ e ∈ seen, ¬ e.node.IsPast next.node :=
        fun e he hp => Std.lt_irrefl (Std.lt_trans hp.1 (hlt e he))
      have hpairs : j.pairs (next :: later) entries =
          j.pairsOf next (entry :: rest) ++ j.pairs later entries := by
        have hnext : j.pairsOf next entries = j.pairsOf next (entry :: rest) := by
          rw [h.entries_eq, JoinStep.pairsOf_append, JoinStep.pairsOf_of_forall hnone,
            List.nil_append]
        rw [JoinStep.pairs_cons, hnext]
      simp only [Bool.false_eq_true, if_false]
      -- Inside the window the mark has to stay for later ancestors.
      cases hwindow : next.node.isDescendantOf s.window.node with
      | true =>
        simp only [if_true, Turn.Leads]
        refine ⟨seen, entry, rest, early, first, ?_, hpairs⟩
        exact {
          entries_eq := h.entries_eq
          cursor_at := h.cursor_at
          marked := h.marked
          ascending := hasc
          window_le := Std.le_trans h.window_le (Std.le_of_lt hnext)
          early_lt := h.early_lt
          not_past := hpast }
      | false =>
        simp only [Bool.false_eq_true, if_false, Turn.Leads]
        obtain ⟨hat, hmark⟩ := h.cursor_at.mark
        refine ⟨seen, entry, rest, seen, entry, ?_, hpairs⟩
        -- A new window opens here, with the mark at the entry.
        exact {
          entries_eq := h.entries_eq
          cursor_at := hat
          marked := ⟨rest, h.entries_eq, hmark⟩
          ascending := hasc
          window_le := Std.le_refl _
          early_lt := hlt
          not_past := hpast }

/-- A step takes in the first of the pairs expected or none, and leads to the others. -/
theorem Expects.step (hsorted : entries.Pairwise fun a b => a.node ≤ b.node)
    {pairs : List (NodeRef × Entry)} (h : s.Expects j body entries pairs) :
    ∃ pairs', pairs = (s.pair? j).toList ++ pairs' ∧
      Turn.Leads j body entries pairs' (s.step j) := by
  obtain ⟨seen, entry, rest, early, first, h, rfl⟩ := h
  have hcur : s.cursor.current? = some entry := h.cursor_at.current?_eq
  have hpair := pair?_of_current? (j := j) hcur
  -- The entry is the first that can stand in a pair with the ancestor.
  have hsplit : j.pairsOf s.ancestor (entry :: rest) =
      (s.pair? j).toList ++ j.pairsOf s.ancestor rest := by
    rw [hpair, JoinStep.pairsOf, List.filter_cons]
    split <;> rfl
  simp only [Sweep.step, hcur]
  cases hr : entry.node.relationTo? s.ancestor.node with
  | some relation =>
    -- An entry below the ancestor is not past it.
    have hentry : ¬ entry.node.IsPast s.ancestor.node := fun hp => by
      rw [hp.2] at hr
      cases hr
    refine ⟨_, ?_, h.nextEntry hentry _⟩
    rw [hsplit, List.append_assoc]
  | none =>
    cases hlt : (compare s.ancestor.node entry.node).isLT with
    | true =>
      have hpast : entry.node.IsPast s.ancestor.node := ⟨NodeId.isLT_compare_iff.mp hlt, hr⟩
      -- Nothing to come is below the ancestor.
      have hnone : ∀ e ∈ entry :: rest, e.node.relationTo? s.ancestor.node = none := by
        rw [h.entries_eq] at hsorted
        have hrest := (List.pairwise_cons.mp (List.pairwise_append.mp hsorted).2.1).1
        exact List.forall_mem_cons.mpr ⟨hr, fun e he => (hpast.of_le (hrest e he)).2⟩
      have hempty := JoinStep.pairsOf_of_forall (j := j) hnone
      have hnopair : (s.pair? j).toList = [] :=
        (List.append_eq_nil_iff.mp (hsplit.symm.trans hempty)).1
      refine ⟨_, ?_, h.nextAncestor⟩
      rw [hempty, hnopair]
    | false =>
      -- An entry in front of the ancestor is not past it either.
      have hentry : ¬ entry.node.IsPast s.ancestor.node := fun hp => by
        rw [NodeId.isLT_compare_iff.mpr hp.1] at hlt
        cases hlt
      refine ⟨_, ?_, h.nextEntry hentry s.found⟩
      rw [hsplit, List.append_assoc]

/-! ## Runs -/

/-- A sweep on its course comes to its end and takes in the pairs expected. -/
theorem Expects.run (hsorted : entries.Pairwise fun a b => a.node ≤ b.node)
    {pairs : List (NodeRef × Entry)} (h : s.Expects j body entries pairs) :
    (∃ found, s.run j = .ok found) ∧ s.pairs j = pairs := by
  -- Induction on the steps of the run: each one takes in the first of what is expected.
  induction s using Sweep.run.induct j generalizing pairs with
  | case1 s e hstep =>
    obtain ⟨_, _, hturn⟩ := h.step hsorted
    rw [hstep] at hturn
    exact hturn.elim
  | case2 s found hstep =>
    obtain ⟨pairs', hpairs, hturn⟩ := h.step hsorted
    rw [hstep] at hturn
    obtain rfl : pairs' = [] := hturn
    exact ⟨⟨found, run_of_done hstep⟩, by rw [pairs_of_done hstep, hpairs, List.append_nil]⟩
  | case3 s s' hstep ih =>
    obtain ⟨pairs', hpairs, hturn⟩ := h.step hsorted
    rw [hstep] at hturn
    obtain ⟨hrun, hpairs'⟩ := ih hturn
    rw [run_of_more hstep, pairs_of_more hstep, hpairs', hpairs]
    exact ⟨hrun, rfl⟩

/-- The sweep at the first entry and the first ancestor. -/
def start (c : Cursor) (a : NodeRef) (ancestors : List NodeRef) (found : NodeSet) : Sweep :=
  { cursor := c.mark, ancestor := a, later := ancestors, window := a, found }

/-- A sweep from the first entry and the first ancestor on takes in all pairs on the axis. -/
theorem run_start {c : Cursor} {ancestors : List NodeRef} {a : NodeRef}
    (hsorted : entries.Pairwise fun a b => a.node ≤ b.node)
    (hasc : (a :: ancestors).Pairwise fun a b => a.node < b.node) (hc : c.At body entries)
    (found : NodeSet) :
    (start c a ancestors found).pairs j = j.pairs (a :: ancestors) entries ∧
      (start c a ancestors found).run j =
        .ok ((j.pairs (a :: ancestors) entries).foldl j.take found) := by
  suffices h : (∃ found', (start c a ancestors found).run j = .ok found') ∧
      (start c a ancestors found).pairs j = j.pairs (a :: ancestors) entries by
    obtain ⟨⟨found', hrun⟩, hpairs⟩ := h
    refine ⟨hpairs, ?_⟩
    rw [hrun, found_run hrun, hpairs]
    rfl
  -- Without an entry the sweep is done at its first step.
  cases entries with
  | nil =>
    have hcur : c.mark.current? = none := hc.current?_eq
    have hstep : (start c a ancestors found).step j = .ok (.done found) := by
      simp only [Sweep.step, start, hcur]
    refine ⟨⟨found, run_of_done hstep⟩, ?_⟩
    rw [pairs_of_done hstep, pair?, start, hcur]
    exact (JoinStep.pairs_of_lt fun _ _ _ he => absurd he List.not_mem_nil).symm
  | cons entry rest =>
    obtain ⟨hat, hmark⟩ := hc.mark
    -- Nothing was passed so far, so the invariant holds.
    have hstart : Expects j body (entry :: rest) (start c a ancestors found)
        (j.pairs (a :: ancestors) (entry :: rest)) := by
      refine ⟨[], entry, rest, [], entry, ?_, JoinStep.pairs_cons ..⟩
      exact {
        entries_eq := rfl
        cursor_at := hat
        marked := ⟨rest, rfl, hmark⟩
        ascending := hasc
        window_le := Std.le_refl _
        early_lt := by simp
        not_past := by simp }
    exact hstart.run hsorted

end Sweep

end XmlIndex
