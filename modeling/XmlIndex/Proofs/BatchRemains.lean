import XmlIndex.Batch
import XmlIndex.NodeSet
import XmlIndex.Proofs.EntryArranging
import XmlIndex.Proofs.MapLaws

/-! # What remains of a batch

A flush and the removal of a batch take name after name out of the batch.  What they work on
is therefore not the batch they were given but what remains of it.

A removal leaves the other names alone (`Batch.StillHas`), so that their nodes stay in the order
in which they were registered (`Batch.Retains`).  A flush puts the nodes of a name that failed
back in another order, but the block made of them is sorted anyway (`Batch.Remains`). -/

namespace XmlIndex

/-! ## Sorted references -/

namespace NodeRef

/-- Sorting again changes nothing. -/
theorem sort_sort (nodes : List NodeRef) : sort (sort nodes) = sort nodes :=
  List.mergeSort_of_pairwise (List.pairwise_mergeSort isLE_compare_trans isLE_compare_total nodes)

/-- Sorting keeps the nodes. -/
theorem perm_sort (nodes : List NodeRef) : (sort nodes).Perm nodes :=
  List.mergeSort_perm nodes _

end NodeRef

namespace Batch

variable {b b' : Batch} {q : QName} {names : List QName}

/-- A batch is empty if it has no names. -/
theorem isEmpty_iff : b.isEmpty = true ↔ b.names = [] := by
  rw [isEmpty, SortedMap.isEmpty, List.isEmpty_iff]
  exact List.map_eq_nil_iff.symm

/-! ## What remains of a batch -/

/-- `b'` is what remains of `b` when just these names are left.  The nodes of a name may be
in another order than before, as far as sorting them makes up for it. -/
structure Remains (b b' : Batch) (names : List QName) : Prop where
  document : b'.document = b.document
  order : b'.order = b.order
  names_eq : b'.names = names
  nodes : ∀ q ∈ names, (b'.nodes? q).map NodeRef.sort = (b.nodes? q).map NodeRef.sort

/-- All of a batch remains at first. -/
theorem remains_self (b : Batch) : b.Remains b b.names := ⟨rfl, rfl, rfl, fun _ _ => rfl⟩

/-- The names of a batch are those with nodes. -/
theorem mem_names_iff : q ∈ b.names ↔ (b.nodes? q).isSome :=
  SortedMap.mem_keys_iff

/-- Dropping a name leaves the nodes of the others. -/
theorem nodes?_drop (b : Batch) (q q' : QName) :
    (b.drop q).nodes? q' = if q = q' then none else b.nodes? q' :=
  b.pending.get?_erase_eq q q'

/-- Putting back a name leaves the nodes of the others. -/
theorem nodes?_restore (b : Batch) (q q' : QName) (nodes : List NodeRef) :
    (b.restore q nodes).nodes? q' = if q' = q then some nodes else b.nodes? q' :=
  b.pending.get?_insert_eq q q' nodes

namespace Remains

/-- The names that remain ascend. -/
theorem pairwise (h : b.Remains b' names) : names.Pairwise fun a b => compare a b = .lt :=
  h.names_eq ▸ b'.pending.pairwise_keys

/-- The nodes of a name that remains. -/
theorem nodes_of_mem (h : b.Remains b' names) (hq : q ∈ names) :
    ∃ before after, b.nodes? q = some before ∧ b'.nodes? q = some after ∧
      NodeRef.sort after = NodeRef.sort before := by
  obtain ⟨after, hafter⟩ := Option.isSome_iff_exists.mp (mem_names_iff.mp (h.names_eq ▸ hq))
  have hsort := h.nodes q hq
  rw [hafter, Option.map_some] at hsort
  obtain ⟨before, hbefore, hsort⟩ := Option.map_eq_some_iff.mp hsort.symm
  exact ⟨before, after, hbefore, hafter, hsort.symm⟩

/-- The names ascend, so the one in front is none of the others. -/
theorem ne_of_mem (h : b.Remains b' (q :: names)) {q' : QName} (hq' : q' ∈ names) : q ≠ q' :=
  SortedMap.ne_of_compare_eq_lt ((List.pairwise_cons.mp h.pairwise).1 q' hq')

/-- The name in front leaves the batch. -/
theorem drop_front (h : b.Remains b' (q :: names)) : b.Remains (b'.drop q) names := by
  have hpair := (List.pairwise_cons.mp h.pairwise).2
  -- The names of the rest ascend, so it is enough that they are the names with nodes.
  refine ⟨h.document, h.order, SortedMap.keys_eq_of_mem_iff hpair fun q' => ?_, fun q' hq' => ?_⟩
  · show _ ↔ ((b'.drop q).nodes? q').isSome
    rw [nodes?_drop]
    by_cases hq : q = q'
    · subst hq
      simp only [if_true, Option.isSome_none, Bool.false_eq_true, iff_false]
      exact fun hmem => h.ne_of_mem hmem rfl
    · rw [if_neg hq, ← mem_names_iff, h.names_eq, List.mem_cons]
      exact ⟨.inr, fun hmem => hmem.resolve_left (Ne.symm hq)⟩
  · rw [nodes?_drop, if_neg (h.ne_of_mem hq')]
    exact h.nodes q' (List.mem_cons_of_mem q hq')

/-- The name in front failed, and its nodes were put back. -/
theorem restore_front {nodes : List NodeRef} (h : b.Remains b' (q :: names))
    (hn : b'.nodes? q = some nodes) :
    b.Remains ((b'.drop q).restore q (NodeRef.sort nodes)) (q :: names) := by
  -- Taking `q` out and putting it back leaves the other names alone.
  have hrest : ∀ q' ≠ q, ((b'.drop q).restore q (NodeRef.sort nodes)).nodes? q' = b'.nodes? q' :=
    fun q' hne => by rw [nodes?_restore, if_neg hne, nodes?_drop, if_neg (Ne.symm hne)]
  refine ⟨h.document, h.order, SortedMap.keys_eq_of_mem_iff h.pairwise fun q' => ?_,
    fun q' hq' => ?_⟩
  · show _ ↔ (((b'.drop q).restore q (NodeRef.sort nodes)).nodes? q').isSome
    rw [← h.names_eq, mem_names_iff]
    by_cases hq : q' = q
    · subst hq
      simp [nodes?_restore, hn]
    · rw [hrest q' hq]
  · by_cases hq : q' = q
    · subst hq
      -- The nodes of `q` are sorted now, and sorting them again does nothing.
      rw [nodes?_restore, if_pos rfl, ← h.nodes q' hq', hn, Option.map_some, Option.map_some,
        NodeRef.sort_sort]
    · rw [hrest q' hq]
      exact h.nodes q' hq'

end Remains

/-! ## What a removal still has to do -/

/-- The batch still has its nodes of these names. -/
structure StillHas (b b' : Batch) (names : List QName) : Prop where
  document : b'.document = b.document
  nodes : ∀ q ∈ names, ∃ nodes, b.nodes? q = some nodes ∧ b'.nodes? q = some nodes
  nodup : names.Nodup

/-- A batch still has all its names at first. -/
theorem stillHas_self (b : Batch) : b.StillHas b b.names where
  document := rfl
  nodes := fun q hq => by
    obtain ⟨nodes, h⟩ := Option.isSome_iff_exists.mp (mem_names_iff.mp hq)
    exact ⟨nodes, h, h⟩
  nodup := b.pending.nodup_keys

namespace StillHas

/-- The name in front leaves the batch, which still has the others. -/
theorem drop_front {q : QName} (h : b.StillHas b' (q :: names)) :
    b.StillHas (b'.drop q) names where
  document := h.document
  nodes := fun q' hq' => by
    have hne : q ≠ q' := fun he => (List.nodup_cons.mp h.nodup).1 (he ▸ hq')
    rw [nodes?_drop, if_neg hne]
    exact h.nodes q' (List.mem_cons_of_mem q hq')
  nodup := (List.nodup_cons.mp h.nodup).2

end StillHas

/-- `b'` is what remains of `b` when just these names are left, with their nodes in the order
in which they were registered. -/
structure Retains (b b' : Batch) (names : List QName) : Prop extends Remains b b' names where
  nodes?_eq : ∀ q ∈ names, b'.nodes? q = b.nodes? q

/-- A batch retains all its names at first. -/
theorem retains_self (b : Batch) : b.Retains b b.names := ⟨b.remains_self, fun _ _ => rfl⟩

namespace Retains

/-- The name in front has the nodes that were registered for it. -/
theorem exists_nodes (h : b.Retains b' (q :: names)) :
    ∃ nodes, b.nodes? q = some nodes ∧ b'.nodes? q = some nodes := by
  obtain ⟨before, _, hbefore, _, _⟩ := h.nodes_of_mem (.head names)
  exact ⟨before, hbefore, (h.nodes?_eq q (.head names)).trans hbefore⟩

/-- The name in front leaves the batch. -/
theorem drop_front (h : b.Retains b' (q :: names)) : b.Retains (b'.drop q) names := by
  refine ⟨h.toRemains.drop_front, fun q' hq' => ?_⟩
  rw [nodes?_drop, if_neg (h.ne_of_mem hq')]
  exact h.nodes?_eq q' (List.mem_cons_of_mem q hq')

/-- What remains is discarded as the whole batch would be. -/
theorem discard_eq (h : b.Retains b' names) : b'.discard = b.discard := by
  rw [discard, discard, h.document, h.order]

end Retains

end Batch

end XmlIndex
