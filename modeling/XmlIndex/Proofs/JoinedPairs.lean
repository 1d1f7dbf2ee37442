import Mathlib.Data.List.Count
import Mathlib.Data.List.Nodup
import XmlIndex.Proofs.SweepNestedLoop

/-! # The pairs of a join

Joining a block takes in pairs of an ancestor and an entry (`JoinStep.taken`), and its results are
what comes of these pairs (`JoinStep.found_joinBlock`).  If the body of the block can be read and
its entries stand in document order, the pairs are those of the nested loop, in its order
(`JoinStep.joinBlock_takes_pairs`).  Entries may repeat each other, and ancestors may be nested or
not: every time an entry occurs, it is taken in once for each ancestor on whose axis it stands. -/

namespace XmlIndex

namespace JoinStep

variable {j : JoinStep} {ancestors : List NodeRef} {entries : List Entry} {found found' : NodeSet}
  {b : Block}

/-- The pairs that joining a block takes in, in order, up to its end or to where it fails. -/
def taken (j : JoinStep) (ancestors : List NodeRef) (found : NodeSet) (b : Block) :
    List (NodeRef × Entry) :=
  match ancestors, b.orderedCursor with
  | a :: later, .ok cursor => (Sweep.start cursor a later found).pairs j
  | _, _ => []

/-- The results of joining a block are those before it, with the pairs that it takes in. -/
theorem found_joinBlock (h : j.joinBlock ancestors found b = .ok found') :
    found' = (j.taken ancestors found b).foldl j.take found := by
  -- Without an ancestor no cursor is opened.
  cases ancestors with
  | nil => exact (Except.ok.inj h).symm
  | cons a later =>
    cases hcursor : b.orderedCursor with
    | error e =>
      simp only [joinBlock, hcursor] at h
      cases h
    | ok cursor =>
      simp only [joinBlock, hcursor] at h
      simp only [taken, hcursor]
      exact Sweep.found_run h

/-! ## How often a pair is taken in -/

theorem count_product {α β : Type} [DecidableEq α] [DecidableEq β] (l : List α) (l' : List β)
    (a : α) (b : β) : (l ×ˢ l').count (a, b) = l.count a * l'.count b := by
  induction l with
  | nil => rw [List.nil_product, List.count_nil, List.count_nil, Nat.zero_mul]
  | cons x l ih =>
    rw [List.product_cons, List.count_append, ih, List.count_cons]
    by_cases hx : x = a
    · subst hx
      -- Pairs with one first part are as many as their second parts.
      have hinj : Function.Injective (Prod.mk x : β → α × β) := fun _ _ h => (Prod.mk.inj h).2
      rw [List.count_map_of_injective _ _ hinj, if_pos (beq_self_eq_true x), Nat.succ_mul,
        Nat.add_comm]
    · have hnone : (l'.map fun y => (x, y)).count (a, b) = 0 := by
        refine List.count_eq_zero.mpr fun hmem => ?_
        obtain ⟨_, _, heq⟩ := List.mem_map.mp hmem
        exact hx (Prod.mk.inj heq).1
      rw [hnone, if_neg (by simpa using hx), Nat.zero_add, Nat.add_zero]

/-- An entry stands in the pairs of an ancestor as often as it occurs. -/
theorem count_pairs (hancestors : ancestors.Nodup) {a : NodeRef} (ha : a ∈ ancestors) (e : Entry) :
    (j.pairs ancestors entries).count (a, e) =
      if j.accepts a e.node then entries.count e else 0 := by
  split
  -- The ancestor occurs once, so the entry is counted as often as it occurs itself.
  · next haccepts =>
    rw [pairs, List.count_filter (by exact haccepts), count_product,
      List.count_eq_one_of_mem hancestors ha, Nat.one_mul]
  · next haccepts =>
    refine List.count_eq_zero.mpr fun hmem => ?_
    exact haccepts (List.mem_filter.mp hmem).2

/-! ## Blocks in document order -/

/-- What is relied on when a block with these entries is joined. -/
structure TakesPairs (j : JoinStep) (ancestors : List NodeRef) (entries : List Entry)
    (found : NodeSet) (b : Block) : Prop where
  /-- It succeeds, with the results of the nested loop. -/
  joinBlock_eq : j.joinBlock ancestors found b = .ok (j.nestedLoop ancestors entries found)
  /-- It takes in the pairs of the nested loop, in its order. -/
  taken_eq : j.taken ancestors found b = j.pairs ancestors entries
  /-- An entry goes with an ancestor as often as it occurs, if it stands on its axis. -/
  count_taken : ∀ a ∈ ancestors, ∀ e, (j.taken ancestors found b).count (a, e) =
    if j.accepts a e.node then entries.count e else 0

/-- A block in document order is joined as by the nested loop, whatever is behind the closing mark
of its body, and whether or not its entries repeat each other and the ancestors are nested. -/
theorem joinBlock_takes_pairs (j : JoinStep) (hordered : b.order = .ordered) {rest : Input}
    (hread : Entry.readAll (.ofBytes b.body) = .ok entries rest)
    (hsorted : entries.Pairwise fun e e' => e.node ≤ e'.node)
    (hasc : ancestors.Pairwise fun a a' => a.node < a'.node) (found : NodeSet) :
    j.TakesPairs ancestors entries found b := by
  obtain ⟨cursor, hcursor, hat⟩ := Cursor.ofBody_of_readAll hread
  have hordcursor : b.orderedCursor = .ok cursor := by rw [Block.orderedCursor, hordered, hcursor]
  have hnodup : ancestors.Nodup := hasc.imp fun {a a'} hlt heq => by
    rw [heq] at hlt
    exact Std.lt_irrefl hlt
  -- It is enough to know the pairs in order; the counts and the fold follow.
  suffices h : j.taken ancestors found b = j.pairs ancestors entries ∧
      j.joinBlock ancestors found b = .ok ((j.pairs ancestors entries).foldl j.take found) by
    refine ⟨?_, h.1, fun a ha e => ?_⟩
    · rw [h.2, foldl_take_pairs]
    · rw [h.1, count_pairs hnodup ha]
  cases ancestors with
  | nil => exact ⟨rfl, rfl⟩
  | cons a later =>
    simp only [taken, joinBlock, hordcursor]
    exact Sweep.run_start hsorted hasc hat found

/-! ## A repeated entry below nested ancestors -/

/-- Entries in document order, one of which occurs twice. -/
def repeating : List Entry :=
  [⟨⟨[1]⟩, ⟨10⟩⟩, ⟨⟨[1, 1]⟩, ⟨11⟩⟩, ⟨⟨[1, 1, 1]⟩, ⟨12⟩⟩, ⟨⟨[1, 1, 1]⟩, ⟨12⟩⟩, ⟨⟨[1, 2, 1]⟩, ⟨13⟩⟩]

/-- A block with these entries, and with one more byte behind the closing mark. -/
def repeatingBlock : Block :=
  { Block.ofEntries 1 .ordered repeating with body := Entry.encodeBody repeating ++ [255] }

/-- Two ancestors nested in a third one, but not in each other. -/
def nestedAncestors : List NodeRef :=
  [{ doc := 1, node := ⟨[1]⟩ }, { doc := 1, node := ⟨[1, 1]⟩ }, { doc := 1, node := ⟨[1, 2]⟩ }]

/-- The elements below some nodes. -/
def elementsBelow : JoinStep where
  doc := 1
  type := .element
  axis := .descendant
  contextId? := none

/-- Every element is found below each of its ancestors, as often as it occurs. -/
theorem joinBlock_takes_pairs_repeating :
    (∃ found, elementsBelow.joinBlock nestedAncestors .empty repeatingBlock = .ok found) ∧
      (elementsBelow.taken nestedAncestors .empty repeatingBlock).map
          (fun pair => (pair.1.node.levels, pair.2.node.levels)) =
        [([1], [1, 1]), ([1], [1, 1, 1]), ([1], [1, 1, 1]), ([1], [1, 2, 1]),
          ([1, 1], [1, 1, 1]), ([1, 1], [1, 1, 1]), ([1, 2], [1, 2, 1])] := by
  have hstorable : ∀ e ∈ repeating, e.Storable := by
    simp [repeating, Entry.Storable, NodeId.Valid, UInt32.size]
  obtain ⟨rest, hread, _⟩ :=
    Entry.takes_readAll hstorable (.ofBytes repeatingBlock.body) [255] rfl
  have hjoins : elementsBelow.TakesPairs nestedAncestors repeating .empty repeatingBlock :=
    joinBlock_takes_pairs elementsBelow rfl hread (by decide) (by decide) .empty
  refine ⟨⟨_, hjoins.joinBlock_eq⟩, ?_⟩
  rw [hjoins.taken_eq]
  decide

end JoinStep

end XmlIndex
