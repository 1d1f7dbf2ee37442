import XmlIndex.Proofs.BlockFraming
import XmlIndex.Proofs.NodeSetMerge
import XmlIndex.Proofs.SweepPairs

/-! # The sweep as a nested loop

The specification of a join is a nested loop: for every ancestor, go through all entries and
take those on its axis (`JoinStep.nestedLoop`).  A sweep takes in the same pairs in the same order,
so a block is joined as by the nested loop (`JoinStep.joinBlock_eq_nestedLoop`). -/

namespace XmlIndex

open Input

namespace JoinStep

/-! ## The specification -/

/-- The results with an entry, if it stands on the axis of the ancestor. -/
def visit (j : JoinStep) (ancestor : NodeRef) (found : NodeSet) (entry : Entry) : NodeSet :=
  if j.accepts ancestor entry.node then found.add (j.result entry ancestor) else found

/-- The results with all entries on the axis of an ancestor, one ancestor after the other. -/
def nestedLoop (j : JoinStep) (ancestors : List NodeRef) (entries : List Entry)
    (found : NodeSet) : NodeSet :=
  ancestors.foldl (fun found a => entries.foldl (j.visit a) found) found

variable {j : JoinStep}

/-- The first ancestor takes its entries before the others. -/
@[simp] theorem nestedLoop_cons (a : NodeRef) (as : List NodeRef) (entries : List Entry)
    (found : NodeSet) :
    j.nestedLoop (a :: as) entries found =
      j.nestedLoop as entries (entries.foldl (j.visit a) found) := rfl

/-- Taking in the pairs of an ancestor is going through all entries. -/
theorem foldl_take_pairsOf (a : NodeRef) (entries : List Entry) (found : NodeSet) :
    (j.pairsOf a entries).foldl j.take found = entries.foldl (j.visit a) found := by
  rw [pairsOf, List.foldl_map, List.foldl_filter]
  rfl

/-- Taking in all pairs is the nested loop. -/
theorem foldl_take_pairs (ancestors : List NodeRef) (entries : List Entry) (found : NodeSet) :
    (j.pairs ancestors entries).foldl j.take found = j.nestedLoop ancestors entries found := by
  induction ancestors generalizing found with
  | nil => rfl
  | cons a ancestors ih =>
    rw [pairs_cons, List.foldl_append, foldl_take_pairsOf, ih, nestedLoop_cons]

end JoinStep

namespace Block

/-- The entries of a block in document order: an ordered block is left as it is. -/
def arranged (b : Block) (es : List Entry) : List Entry :=
  if b.order.isOrdered then es else Entry.arrange es

/-- Entries that were decoded can be written again in document order. -/
theorem takes_arrange {b : Block} {es : List Entry} (h : b.entries = .ok es) :
    Takes Entry.readAll (Entry.encodeBody (Entry.arrange es)) (Entry.arrange es) :=
  Entry.takes_readAll fun e he => storable_of_entries h e (Entry.mem_of_mem_arrange he)

/-- A cursor on a block that can be decoded stands on its first entry in document order. -/
theorem orderedCursor_of_entries {b : Block} {es : List Entry} (h : b.entries = .ok es) :
    ∃ body c, b.orderedCursor = .ok c ∧ c.At body (b.arranged es) := by
  have htakes := (entries_eq_ok_iff.mp h).1
  simp only [orderedCursor, arranged]
  -- An unordered block is decoded, arranged and written again for the cursor.
  cases b.order with
  | ordered =>
    obtain ⟨c, hc, hat⟩ := Cursor.ofBody_of_takes htakes
    exact ⟨_, c, hc, hat⟩
  | unordered =>
    obtain ⟨c, hc, hat⟩ := Cursor.ofBody_of_takes (takes_arrange h)
    refine ⟨_, c, ?_, hat⟩
    rw [h]
    exact hc

/-- Arranged entries ascend. -/
theorem sorted_arranged {b : Block} {es : List Entry}
    (h : b.order = .ordered → es.Pairwise fun a b => a.node ≤ b.node) :
    (b.arranged es).Pairwise fun a b => a.node ≤ b.node := by
  rw [arranged]
  cases hb : b.order with
  | ordered => exact h hb
  | unordered => exact (Entry.ascending_arrange es).imp Std.le_of_lt

/-- Arranging keeps the first entry with every id. -/
theorem find?_arranged (b : Block) (es : List Entry) (n : NodeId) :
    (b.arranged es).find? (·.node == n) = es.find? (·.node == n) := by
  rw [arranged]
  split
  · rfl
  · exact Entry.find?_arrange es n

end Block

namespace JoinStep

variable {j : JoinStep}

/-- A block that can be decoded is joined as by the nested loop. -/
theorem joinBlock_eq_nestedLoop {b : Block} {es : List Entry} {ancestors : List NodeRef}
    {found : NodeSet} (h : b.entries = .ok es)
    (hord : b.order = .ordered → es.Pairwise fun a b => a.node ≤ b.node)
    (hasc : ancestors.Pairwise fun a b => a.node < b.node) :
    j.joinBlock ancestors found b = .ok (j.nestedLoop ancestors (b.arranged es) found) := by
  -- Without ancestors the block is not read.
  cases ancestors with
  | nil => rfl
  | cons a ancestors =>
    obtain ⟨body, c, hc, hat⟩ := Block.orderedCursor_of_entries h
    simp only [joinBlock, hc]
    have hstart := Sweep.run_start (j := j) (Block.sorted_arranged hord) hasc hat found
    rw [foldl_take_pairs] at hstart
    exact hstart.2

/-! ## What a nested loop adds -/

/-- The results for all pairs, in the order of the nested loop. -/
def matching (j : JoinStep) (ancestors : List NodeRef) (entries : List Entry) : List NodeRef :=
  ancestors.flatMap fun a => (entries.filter (j.accepts a ·.node)).map (j.result · a)

/-- An ancestor adds the results for the entries it takes. -/
theorem foldl_visit_eq (a : NodeRef) (entries : List Entry) (found : NodeSet) :
    entries.foldl (j.visit a) found =
      ((entries.filter (j.accepts a ·.node)).map (j.result · a)).foldl NodeSet.add found := by
  rw [List.foldl_map, List.foldl_filter]
  rfl

/-- The nested loop adds its results one by one. -/
theorem nestedLoop_eq_foldl_add (ancestors : List NodeRef) (entries : List Entry)
    (found : NodeSet) :
    j.nestedLoop ancestors entries found =
      (j.matching ancestors entries).foldl NodeSet.add found := by
  induction ancestors generalizing found with
  | nil => rfl
  | cons a ancestors ih =>
    rw [nestedLoop_cons, ih, foldl_visit_eq, ← List.foldl_append]
    rfl

/-- The results are those of an ancestor and an entry on its axis. -/
theorem mem_matching {ancestors : List NodeRef} {entries : List Entry} {r : NodeRef} :
    r ∈ j.matching ancestors entries ↔
      ∃ a ∈ ancestors, ∃ e ∈ entries, j.accepts a e.node = true ∧ r = j.result e a := by
  simp only [matching, List.mem_flatMap, List.mem_map, List.mem_filter, and_assoc,
    eq_comm (a := r)]

/-- A result is the node of the entry, with the contexts of the ancestor. -/
theorem result_eq (j : JoinStep) (e : Entry) (a : NodeRef) :
    j.result e a =
      { doc := j.doc, node := e.node, address := e.address, type? := some j.type,
        origins := (j.result e a).origins } := by
  rw [result]
  cases j.contextId? with
  | none => exact NodeRef.addOrigins_eq _ _
  | some id =>
    simp only [NodeRef.inheritAs, NodeRef.inherit]
    rw [NodeRef.addOrigin_eq, NodeRef.addOrigins_eq]

/-- A result has the contexts of the ancestor, and the one that is asked for. -/
theorem mem_origins_result {e : Entry} {a : NodeRef} {o : Origin} :
    o ∈ (j.result e a).origins ↔
      o ∈ a.origins ∨ ∃ id, j.contextId? = some id ∧ o = ⟨id, a.node⟩ := by
  rw [result]
  cases j.contextId? with
  | none => simp [NodeRef.inherit, NodeRef.mem_origins_addOrigins]
  | some id =>
    simp [NodeRef.inheritAs, NodeRef.inherit, NodeRef.mem_origins_addOrigin,
      NodeRef.mem_origins_addOrigins]

/-- No context occurs twice in a result. -/
theorem nodup_origins_result (e : Entry) (a : NodeRef) : (j.result e a).origins.Nodup := by
  rw [result]
  cases j.contextId? with
  | none =>
    refine NodeRef.nodup_origins_addOrigins ?_ a.origins
    exact .nil
  | some id =>
    refine NodeRef.nodup_origins_addOrigin (NodeRef.nodup_origins_addOrigins ?_ a.origins) _
    exact .nil

/-- An ancestor takes all entries with an id, or none. -/
theorem find?_filter_accepts (a : NodeRef) (entries : List Entry) (n : NodeId) :
    (entries.filter (j.accepts a ·.node)).find? (·.node == n) =
      if j.accepts a n then entries.find? (·.node == n) else none := by
  induction entries with
  | nil => simp
  | cons e entries ih =>
    -- What is accepted depends on the id only.
    by_cases he : e.node = n
    · subst he
      cases h : j.accepts a e.node <;> simp [h, ih]
    · have hrest : (e :: entries).find? (·.node == n) = entries.find? (·.node == n) :=
        List.find?_cons_of_neg (by simp [he])
      rw [hrest, ← ih]
      cases h : j.accepts a e.node <;> simp [h, he]

/-- The first result for a node comes from the first entry with its id. -/
theorem address_find?_matching (ancestors : List NodeRef) (entries : List Entry) (n : NodeId) :
    ((j.matching ancestors entries).find? (·.node == n)).map (·.address) =
      if ancestors.any (j.accepts · n) then (entries.find? (·.node == n)).map (·.address)
      else none := by
  -- Induction on the ancestors: the first one that accepts the node has taken its first entry.
  induction ancestors with
  | nil => rfl
  | cons a ancestors ih =>
    have hnode : (fun e : Entry => (j.result e a).node == n) = fun e => e.node == n := by
      funext e
      rw [result_eq]
    have hfirst : ((entries.filter (j.accepts a ·.node)).map (j.result · a)).find? (·.node == n) =
        (if j.accepts a n then entries.find? (·.node == n) else none).map (j.result · a) := by
      rw [List.find?_map, ← find?_filter_accepts]
      exact congrArg (Option.map _) (congrArg (List.find? · _) hnode)
    have haddress : ∀ e : Entry, (j.result e a).address = e.address := fun e => by rw [result_eq]
    rw [matching, List.flatMap_cons, List.find?_append, hfirst, ← matching, Option.map_or, ih,
      List.any_cons]
    cases j.accepts a n with
    | true => cases entries.find? (·.node == n) <;> simp [haddress]
    | false => simp

end JoinStep

end XmlIndex
