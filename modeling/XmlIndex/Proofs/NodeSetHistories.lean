import Mathlib.Data.List.DropRight
import XmlIndex.Proofs.NodeSetMerge

/-! # Histories of a node set

A node set is changed by adding a reference, by taking back the flag of a document and by
sorting, in any order (`NodeSet.Change`, `NodeSet.build`).  What it holds of a node can be read
off the history: the references to the node that were there at the last sorting are one by now,
and those added since stand behind it (`NodeSet.filter_nodes_build`).

The flag of a document decides how a node is looked up.  Where it is set the references ascend
strictly, so halving finds what going through them from the front finds
(`DocumentNodes.Sound.find?_eq`). -/

namespace XmlIndex

/-! ## Origins in the order in which they were added -/

/-- Where nothing comes twice nothing is left out. -/
theorem eraseDups_of_nodup {α : Type} [BEq α] [LawfulBEq α] {l : List α} (h : l.Nodup) :
    l.eraseDups = l := by
  induction l with
  | nil => rfl
  | cons a l ih =>
    obtain ⟨ha, hl⟩ := List.nodup_cons.mp h
    have hkeep : l.filter (fun b => !b == a) = l :=
      List.filter_eq_self.mpr fun b hb => by
        simpa using fun he : b = a => ha (he ▸ hb)
    rw [List.eraseDups_cons, hkeep, ih hl]

/-- What is there already need not be listed again. -/
theorem eraseDups_append_of_subset {α : Type} [BEq α] [LawfulBEq α] {l m : List α} (k : List α)
    (h : ∀ a ∈ m, a ∈ l) : (l ++ (m ++ k)).eraseDups = (l ++ k).eraseDups := by
  have hnil : m.removeAll l = [] :=
    List.filter_eq_nil_iff.mpr fun a ha => by simpa using h a ha
  have happend : (m ++ k).removeAll l = m.removeAll l ++ k.removeAll l := List.filter_append m k
  rw [List.eraseDups_append, happend, hnil, List.nil_append, ← List.eraseDups_append]

namespace NodeRef

variable {r : NodeRef} {rs rs' : List NodeRef}

/-- The origins of the reference were added one by one. -/
def Traced (r : NodeRef) : Prop := ∃ os, r = ({ r with origins := [] } : NodeRef).addOrigins os

/-- Origins that were added one by one are without duplicates. -/
theorem Traced.nodup (h : r.Traced) : r.origins.Nodup := by
  obtain ⟨os, hr⟩ := h
  rw [hr]
  exact nodup_origins_addOrigins List.nodup_nil os

/-- Added origins stand behind the old ones, each where it came first. -/
theorem origins_addOrigins (h : r.origins.Nodup) (os : List Origin) :
    (r.addOrigins os).origins = (r.origins ++ os).eraseDups := by
  induction os generalizing r with
  | nil =>
    rw [List.append_nil, eraseDups_of_nodup h]
    rfl
  | cons o os ih =>
    rw [addOrigins, List.foldl_cons, ← addOrigins, ih (nodup_origins_addOrigin h o), addOrigin]
    -- An origin that is there already adds nothing in front of the rest.
    split
    · next ho => exact (eraseDups_append_of_subset os (m := [o]) (by simpa using ho)).symm
    · rw [List.append_assoc, List.singleton_append]

/-- To absorb references is to add the origins of all of them. -/
theorem absorb_eq_addOrigins (r : NodeRef) (rs : List NodeRef) :
    r.absorb rs = r.addOrigins (rs.flatMap (·.origins)) := by
  rw [addOrigins, List.foldl_flatMap]
  rfl

/-- The first of the references, with the origins of all in the order in which they came. -/
theorem fuse_eq (h : ∀ r ∈ rs, r.origins.Nodup) :
    fuse rs = rs.head?.map fun first =>
      { first with origins := (rs.flatMap (·.origins)).eraseDups } := by
  cases rs with
  | nil => rfl
  | cons r rs =>
    rw [fuse, absorb_eq_addOrigins, addOrigins_eq, origins_addOrigins (h r (.head rs))]
    rfl

/-- References can be fused in two goes. -/
theorem fuse_append (rs rs' : List NodeRef) :
    fuse ((fuse rs).toList ++ rs') = fuse (rs ++ rs') := by
  cases rs with
  | nil => rfl
  | cons r rs =>
    show some ((r.absorb rs).absorb rs') = some (r.absorb (rs ++ rs'))
    rw [absorb, absorb, absorb, List.foldl_append]

end NodeRef

/-! ## Looking up a node -/

namespace DocumentNodes

variable {nodes : Array NodeRef} {n : NodeId} {r : NodeRef}

/-- Halving finds the reference to a node wherever it is in the part that is searched. -/
theorem search_eq_some_iff (hasc : nodes.toList.Pairwise fun a b => a.node < b.node)
    {low high : Nat} {h : high ≤ nodes.size} :
    search nodes n low high h = some r ↔
      ∃ (i : Nat) (hi : i < nodes.size), low ≤ i ∧ i < high ∧ nodes[i] = r ∧ r.node = n := by
  -- Of two references to different nodes the one to the later node stands behind the other.
  have hplace : ∀ i j (hi : i < nodes.size) (hj : j < nodes.size),
      nodes[i].node < nodes[j].node → i < j := by
    intro i j hi hj hij
    rcases Nat.lt_trichotomy i j with h | rfl | h
    · exact h
    · exact absurd hij Std.lt_irrefl
    · have hji := List.pairwise_iff_getElem.mp hasc j i hj hi h
      exact absurd (Std.lt_trans hij hji) Std.lt_irrefl
  fun_induction search nodes n low high h with
  -- The reference in the middle is the one, and there is no other to the node.
  | case1 low high h hlow middle hm heq =>
    have hn : nodes[middle].node = n := Std.LawfulEqOrd.eq_of_compare heq
    constructor
    · intro hr
      obtain rfl := Option.some.inj hr
      exact ⟨middle, hm, by omega, by omega, rfl, hn⟩
    · rintro ⟨i, hi, _, _, rfl, hr⟩
      have hfind := (mem_iff_find?_of_ascending hasc).mp (Array.getElem_mem_toList hi)
      have hfind' := (mem_iff_find?_of_ascending hasc).mp (Array.getElem_mem_toList hm)
      rw [hr] at hfind
      rw [hn] at hfind'
      rw [← hfind, ← hfind']
  -- The middle is in front of the node, so the reference is in the upper part.
  | case2 low high h hlow middle hm heq ih =>
    refine ih.trans (exists_congr fun i => exists_congr fun hi => ?_)
    constructor
    · rintro ⟨hmi, hih, hr⟩
      exact ⟨by omega, hih, hr⟩
    · rintro ⟨_, hih, rfl, rfl⟩
      exact ⟨hplace middle i hm hi (NodeId.compare_eq_lt_iff.mp heq), hih, rfl, rfl⟩
  -- The middle is behind the node, so the reference is in the lower part.
  | case3 low high h hlow middle hm heq ih =>
    refine ih.trans (exists_congr fun i => exists_congr fun hi => ?_)
    constructor
    · rintro ⟨hli, him, hr⟩
      exact ⟨hli, by omega, hr⟩
    · rintro ⟨hli, _, rfl, rfl⟩
      have hlt := NodeId.compare_eq_lt_iff.mp (Std.OrientedCmp.gt_iff_lt.mp heq)
      exact ⟨hli, hplace i middle hi hm hlt, rfl, rfl⟩
  -- Nothing is left to search.
  | case4 low high h hlow =>
    constructor
    · intro hr
      cases hr
    · rintro ⟨i, hi, hli, hih, _⟩
      omega

/-- The flag makes no difference to what is found. -/
theorem Sound.find?_eq {d : DocumentNodes} (h : d.Sound) (n : NodeId) :
    d.find? n = d.nodes.toList.find? (·.node == n) := by
  rw [find?]
  split
  · next hs =>
    have hasc := h hs
    refine Option.ext fun r => (search_eq_some_iff hasc).trans ?_
    constructor
    · rintro ⟨i, hi, _, _, rfl, rfl⟩
      exact (mem_iff_find?_of_ascending hasc).mp (Array.getElem_mem_toList hi)
    · intro hr
      have hnode : r.node = n := by simpa using List.find?_some hr
      obtain ⟨i, hi, hget⟩ := List.mem_iff_getElem.mp (List.mem_of_find?_eq_some hr)
      exact ⟨i, hi, Nat.zero_le i, hi, hget, hnode⟩
  -- Without the flag the references are gone through from the front anyway.
  · exact Array.find?_toList.symm

/-- Sorted references are flagged as such. -/
theorem sorted_sort (d : DocumentNodes) : d.sort.sorted = true := by
  rw [sort]
  split
  · next hs => exact hs
  · rfl

/-- Sorting a second time does nothing. -/
theorem sort_sort (d : DocumentNodes) : d.sort.sort = d.sort := by
  rw [sort.eq_1 d.sort, if_pos d.sorted_sort]

end DocumentNodes

namespace NodeSet

variable {s : NodeSet} {doc : DocId} {n : NodeId}

/-- What is found under an id is the first reference to the node. -/
theorem Sound.get?_eq (h : s.Sound) (doc : DocId) (n : NodeId) :
    s.get? doc n = (s.nodes doc).find? (·.node == n) := by
  rw [get?, nodes]
  cases hd : s.docs.get? doc with
  | none => rfl
  | some d => exact (h doc d hd).find?_eq n

/-- After sorting every document is flagged as sorted. -/
theorem isSorted_sort (s : NodeSet) (doc : DocId) : s.sort.isSorted doc = true := by
  rw [isSorted, NodeSet.sort, SortedMap.get?_mapValues]
  cases s.docs.get? doc with
  | none => rfl
  | some d => exact d.sorted_sort

/-- Sorting a set a second time does nothing. -/
theorem sort_sort (s : NodeSet) : s.sort.sort = s.sort := by
  have hdocs : s.sort.sort.docs = s.sort.docs := SortedMap.ext_get? fun doc => by
    simp only [NodeSet.sort, SortedMap.get?_mapValues, Option.map_map]
    cases s.docs.get? doc with
    | none => rfl
    | some d => exact congrArg some d.sort_sort
  exact congrArg (NodeSet.mk · s.documentSet?) hdocs

/-! ## Histories -/

/-- What is done to a node set. -/
inductive Change where
  | add (r : NodeRef)
  | noteSorted (doc : DocId) (sorted : Bool)
  | sort

namespace Change

def apply (s : NodeSet) : Change → NodeSet
  | add r => s.add r
  | noteSorted doc sorted => s.noteSorted doc sorted
  | sort => s.sort

def isSort : Change → Bool
  | sort => true
  | add _ | noteSorted _ _ => false

/-- The reference to this node that the change adds, if it does. -/
def added? (doc : DocId) (n : NodeId) : Change → Option NodeRef
  | add r => if r.doc = doc ∧ r.node = n then some r else none
  | noteSorted _ _ | sort => none

end Change

/-- The set that these changes make of the empty one. -/
def build (cs : List Change) : NodeSet := cs.foldl Change.apply empty

/-- The references to a node that were added, in their order. -/
def added (cs : List Change) (doc : DocId) (n : NodeId) : List NodeRef :=
  cs.filterMap (Change.added? doc n)

/-- The changes up to the last sorting. -/
def untilSort (cs : List Change) : List Change := cs.rdropWhile fun c => !c.isSort

section Histories

variable {cs : List Change} {r : NodeRef}

/-- The last change is made to what the others built. -/
theorem build_concat (cs : List Change) (c : Change) : build (cs ++ [c]) = c.apply (build cs) :=
  List.foldl_concat ..

/-- All that changes make is a set that was built up. -/
theorem built_build (cs : List Change) : (build cs).Built := by
  -- The last change acts on what the ones before have made.
  induction cs using List.reverseRecOn with
  | nil => exact .empty
  | append_singleton cs c ih =>
    rw [build_concat]
    cases c with
    | add r => exact ih.add r
    | noteSorted doc sorted => exact ih.noteSorted doc sorted
    | sort => exact ih.sort

/-- The references added for a node are the ones in the history. -/
theorem mem_added : r ∈ added cs doc n ↔ .add r ∈ cs ∧ r.doc = doc ∧ r.node = n := by
  rw [added, List.mem_filterMap]
  constructor
  -- Of the changes only an addition of a reference to the node counts.
  · rintro ⟨c, hc, hr⟩
    cases c with
    | add r' =>
      obtain ⟨hcond, hr⟩ := Option.ite_none_right_eq_some.mp hr
      obtain rfl := Option.some.inj hr
      exact ⟨hc, hcond⟩
    | noteSorted doc sorted => cases hr
    | sort => cases hr
  · rintro ⟨hc, hcond⟩
    exact ⟨.add r, hc, if_pos hcond⟩

/-- Added references have their origins without duplicates. -/
theorem nodup_of_mem_added (h : ∀ r, .add r ∈ cs → r.Traced) :
    ∀ r ∈ added cs doc n, r.origins.Nodup := fun r hr =>
  (h r (mem_added.mp hr).1).nodup

/-- What a change adds stands behind what was added before. -/
theorem added_concat (cs : List Change) (c : Change) (doc : DocId) (n : NodeId) :
    added (cs ++ [c]) doc n = added cs doc n ++ (c.added? doc n).toList := by
  rw [added, List.filterMap_append, ← added]
  cases h : c.added? doc n <;> simp [h]

/-- A change that adds no reference to the node changes nothing in the list. -/
theorem added_of_added?_eq_none {c : Change} (h : c.added? doc n = none) :
    added (cs ++ [c]) doc n = added cs doc n := by
  rw [added_concat, h, Option.toList_none, List.append_nil]

/-- A change that is no sorting leaves the last sorting where it was. -/
theorem untilSort_of_not_isSort {c : Change} (h : c.isSort = false) :
    untilSort (cs ++ [c]) = untilSort cs :=
  List.rdropWhile_concat_pos _ _ c (by rw [h]; rfl)

/-- A sorting is the last one until the next. -/
theorem untilSort_sort (cs : List Change) : untilSort (cs ++ [.sort]) = cs ++ [.sort] :=
  List.rdropWhile_concat_neg _ _ _ (by decide)

/-- Sorting fuses what was fused before with what came since. -/
theorem filter_nodes_sort {s : NodeSet} (h : s.Built) {before since : List NodeRef}
    (hnodes : (s.nodes doc).filter (·.node == n) = (NodeRef.fuse before).toList ++ since) :
    (s.sort.nodes doc).filter (·.node == n) = (NodeRef.fuse (before ++ since)).toList := by
  rw [nodes_sort, filter_of_ascending (ascending_sortedNodes h doc), find?_sortedNodes h, hnodes,
    NodeRef.fuse_append]

/-- Of the references to a node, those that were there at the last sorting are fused, and those
added since stand behind them. -/
theorem filter_nodes_build (cs : List Change) (doc : DocId) (n : NodeId) :
    ∃ since, added cs doc n = added (untilSort cs) doc n ++ since ∧
      ((build cs).nodes doc).filter (·.node == n) =
        (NodeRef.fuse (added (untilSort cs) doc n)).toList ++ since := by
  -- Induction on the history, from its end.
  induction cs using List.reverseRecOn with
  | nil => exact ⟨[], rfl, rfl⟩
  | append_singleton cs c ih =>
    obtain ⟨since, hadded, hnodes⟩ := ih
    rw [build_concat]
    cases c with
    | add r =>
      refine ⟨since ++ (Change.added? doc n (.add r)).toList, ?_, ?_⟩
      · rw [added_concat, untilSort_of_not_isSort rfl, hadded, List.append_assoc]
      · have hnew : (if r.doc = doc then [r] else []).filter (·.node == n) =
            (Change.added? doc n (.add r)).toList := by
          by_cases hdoc : r.doc = doc <;> by_cases hn : r.node = n <;>
            simp [Change.added?, hdoc, hn]
        rw [Change.apply, nodes_add, List.filter_append, hnodes, hnew, List.append_assoc,
          untilSort_of_not_isSort rfl]
    -- A flag moves no reference.
    | noteSorted doc' sorted =>
      refine ⟨since, ?_, ?_⟩
      · rw [added_of_added?_eq_none rfl, untilSort_of_not_isSort rfl, hadded]
      · rw [Change.apply, nodes_noteSorted, untilSort_of_not_isSort rfl, hnodes]
    -- Now all references to the node are fused, and none was added since.
    | sort =>
      rw [untilSort_sort, added_of_added?_eq_none rfl]
      refine ⟨[], (List.append_nil _).symm, ?_⟩
      rw [Change.apply, filter_nodes_sort (built_build cs) hnodes, ← hadded, List.append_nil]

/-- What is found under an id is the reference to the node that was added first, with the
origins of those that were merged into it. -/
theorem get?_build (h : ∀ r, .add r ∈ cs → r.Traced) (doc : DocId) (n : NodeId) :
    (build cs).get? doc n = (added cs doc n).head?.map fun first =>
      { first with origins :=
        (first.origins ++ (added (untilSort cs) doc n).flatMap (·.origins)).eraseDups } := by
  obtain ⟨since, hadded, hnodes⟩ := filter_nodes_build cs doc n
  rw [(built_build cs).sound.get?_eq, ← List.head?_filter, hnodes]
  cases hmerged : added (untilSort cs) doc n with
  | nil =>
    -- Nothing is merged, so the first reference is as it was added.
    rw [hmerged, List.nil_append] at hadded
    subst hadded
    cases hsince : added cs doc n with
    | nil => rfl
    | cons first rest =>
      have hmem : first ∈ added cs doc n := hsince ▸ .head rest
      have hself := eraseDups_of_nodup (nodup_of_mem_added h first hmem)
      show some first = some { first with origins := (first.origins ++ []).eraseDups }
      rw [List.append_nil, hself]
  -- What was merged is the first reference with the origins of the others.
  | cons first rest =>
    rw [hmerged] at hadded
    have hnodup : ∀ r ∈ first :: rest, r.origins.Nodup := fun r hr =>
      nodup_of_mem_added h r (hadded ▸ List.mem_append_left since hr)
    have hfuse := NodeRef.fuse_eq hnodup
    have horigins := eraseDups_append_of_subset (l := first.origins) (m := first.origins)
      (rest.flatMap (·.origins)) fun _ h => h
    rw [hfuse, hadded]
    exact congrArg (fun origins => some { first with origins }) horigins.symm

/-- Sorting leaves one reference to a node, the one that was added first, with the origins of
all. -/
theorem filter_nodes_sort_build (h : ∀ r, .add r ∈ cs → r.Traced) (doc : DocId) (n : NodeId) :
    ((build cs).sort.nodes doc).filter (·.node == n) =
      ((added cs doc n).head?.map fun first =>
        { first with
          origins := ((added cs doc n).flatMap (·.origins)).eraseDups }).toList := by
  obtain ⟨since, hadded, hnodes⟩ := filter_nodes_build cs doc n
  rw [filter_nodes_sort (built_build cs) hnodes, ← hadded, NodeRef.fuse_eq (nodup_of_mem_added h)]

/-- A node is found exactly if a reference to it was ever added. -/
theorem isSome_get?_build (h : ∀ r, .add r ∈ cs → r.Traced) :
    ((build cs).get? doc n).isSome ↔ ∃ r, .add r ∈ cs ∧ r.doc = doc ∧ r.node = n := by
  rw [get?_build h, Option.isSome_map, List.isSome_head?]
  constructor
  · intro hne
    obtain ⟨r, hr⟩ := List.exists_mem_of_ne_nil _ hne
    exact ⟨r, mem_added.mp hr⟩
  · rintro ⟨r, hr⟩
    exact List.ne_nil_of_mem (mem_added.mpr hr)

/-- The flag of a document can be trusted, whatever is done to a set in whatever order.

Where it is set the references ascend strictly.  A node is found exactly if a reference to it
was ever added; what is found, by halving or not, is the one that was added first, with the
origins of those merged into it so far.  Sorting sets the flag of every document, keeps its
nodes, and leaves one reference to each in ascending order, the first, with the origins of all,
each once and in the order in which they were added; sorting again does nothing, and
`sortedNodes` is what the references would be after it. -/
theorem build_sound (cs : List Change) (h : ∀ r, .add r ∈ cs → r.Traced) :
    (∀ doc, (build cs).isSorted doc = true →
      ((build cs).nodes doc).Pairwise fun a b => a.node < b.node) ∧
    (∀ doc n,
      (((build cs).get? doc n).isSome ↔ ∃ r, .add r ∈ cs ∧ r.doc = doc ∧ r.node = n) ∧
      (build cs).get? doc n = ((build cs).nodes doc).find? (·.node == n) ∧
      (build cs).get? doc n = (added cs doc n).head?.map fun first =>
        { first with origins :=
          (first.origins ++ (added (untilSort cs) doc n).flatMap (·.origins)).eraseDups }) ∧
    (∀ doc, (build cs).sort.isSorted doc = true ∧
      ((build cs).sort.nodes doc).Pairwise fun a b => a.node < b.node) ∧
    (∀ doc n,
      ((∃ r ∈ (build cs).sort.nodes doc, r.node = n) ↔ ∃ r ∈ (build cs).nodes doc, r.node = n) ∧
      ((build cs).sort.nodes doc).filter (·.node == n) =
        ((added cs doc n).head?.map fun first =>
          { first with
            origins := ((added cs doc n).flatMap (·.origins)).eraseDups }).toList) ∧
    (build cs).sort.sort = (build cs).sort ∧
    ∀ doc, (build cs).sortedNodes doc = (build cs).sort.nodes doc := by
  -- Each part is a fact on sets that are built, whatever they are built by.
  have hbuilt := built_build cs
  refine ⟨fun doc => hbuilt.sound.ascending_of_isSorted, fun doc n => ⟨isSome_get?_build h, ?_, ?_⟩,
    fun doc => ⟨isSorted_sort _ doc, ?_⟩, fun doc n => ⟨?_, filter_nodes_sort_build h doc n⟩,
    sort_sort _, fun doc => ?_⟩
  · exact hbuilt.sound.get?_eq doc n
  · exact get?_build h doc n
  · exact hbuilt.sound.sort.ascending_of_isSorted (isSorted_sort _ doc)
  · rw [nodes_sort]
    exact exists_mem_sortedNodes hbuilt
  · exact (nodes_sort _ doc).symm

end Histories

/-- A reference to one node, stored at this address and reached in this step. -/
def visit (address contextId : Nat) : NodeRef :=
  ({ doc := 1, node := ⟨[3]⟩, address := ⟨.ofNat address⟩ } : NodeRef).addOrigin
    ⟨.ofNat contextId, ⟨[1]⟩⟩

/-- A node is visited again, before and after the visits are sorted. -/
def visits : List Change :=
  [.add (visit 10 1), .add (visit 11 2), .sort, .noteSorted 1 false, .add (visit 12 3)]

/-- The node is found with its first address and the two origins that were merged, not with that of
the last visit. -/
theorem build_visits_sound :
    (build visits).get? 1 ⟨[3]⟩ =
      some { visit 10 1 with origins := [⟨1, ⟨[1]⟩⟩, ⟨2, ⟨[1]⟩⟩] } ∧
    ((build visits).sort.nodes 1).filter (·.node == ⟨[3]⟩) =
      [{ visit 10 1 with origins := [⟨1, ⟨[1]⟩⟩, ⟨2, ⟨[1]⟩⟩, ⟨3, ⟨[1]⟩⟩] }] := by
  have htraced : ∀ r, .add r ∈ visits → r.Traced := by
    intro r hr
    simp only [visits, List.mem_cons, Change.add.injEq, List.not_mem_nil, reduceCtorEq,
      or_false, false_or] at hr
    rcases hr with rfl | rfl | rfl <;> exact ⟨[_], rfl⟩
  obtain ⟨_, hget, _, hsort, _⟩ := build_sound visits htraced
  exact ⟨(hget 1 ⟨[3]⟩).2.2.trans (by decide), (hsort 1 ⟨[3]⟩).2.trans (by decide)⟩

end NodeSet

end XmlIndex
