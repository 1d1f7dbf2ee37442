import XmlIndex.NodeSet
import XmlIndex.Proofs.EntryArranging
import XmlIndex.Proofs.MapLaws

/-! # Merged references

What sorting a node set keeps is said by `NodeRef.fuse`: of the references to one node, in the
order in which they came, the first, with the origins of all.  A set that was built up by
adding references and sorting (`NodeSet.Built`) is flagged as sorted only where its references
ascend strictly.  So whether or not a document was sorted before, its sorted references ascend
strictly and under every id there is what the references to the node fuse to
(`NodeSet.ascending_sortedNodes`, `NodeSet.find?_sortedNodes`). -/

namespace XmlIndex

namespace NodeRef

/-! ## Origins -/

/-- One more origin changes nothing but the origins. -/
theorem addOrigin_eq (r : NodeRef) (o : Origin) :
    r.addOrigin o = { r with origins := (r.addOrigin o).origins } := by
  rw [addOrigin]
  -- Whether the origin is new or not, only the list of origins is touched.
  split <;> rfl

/-- More origins change nothing else. -/
theorem addOrigins_eq (r : NodeRef) (os : List Origin) :
    r.addOrigins os = { r with origins := (r.addOrigins os).origins } := by
  induction os generalizing r with
  | nil => rfl
  | cons o os ih =>
    rw [addOrigins, List.foldl_cons, ← addOrigins, ih, addOrigin_eq]

/-- The origins are the old ones and the new one, which may have been among them. -/
theorem mem_origins_addOrigin {r : NodeRef} {o o' : Origin} :
    o ∈ (r.addOrigin o').origins ↔ o ∈ r.origins ∨ o = o' := by
  rw [addOrigin]
  split
  · next h =>
    constructor
    · exact .inl
    · rintro (h' | rfl)
      · exact h'
      · exact h
  · rw [List.mem_append, List.mem_singleton]

/-- The origins are the old ones and the added ones. -/
theorem mem_origins_addOrigins {r : NodeRef} {o : Origin} {os : List Origin} :
    o ∈ (r.addOrigins os).origins ↔ o ∈ r.origins ∨ o ∈ os := by
  induction os generalizing r with
  | nil => simp [addOrigins]
  | cons o' os ih =>
    rw [addOrigins, List.foldl_cons, ← addOrigins, ih, mem_origins_addOrigin, List.mem_cons,
      or_assoc]

/-- No origin comes in twice, for one that is there is not added again. -/
theorem nodup_origins_addOrigin {r : NodeRef} (h : r.origins.Nodup) (o : Origin) :
    (r.addOrigin o).origins.Nodup := by
  rw [addOrigin]
  split
  · exact h
  · next hn =>
    refine List.nodup_append.mpr ⟨h, by simp, fun a ha b hb => ?_⟩
    rw [List.mem_singleton.mp hb]
    exact fun he => hn (he ▸ ha)

/-- Adding origins one by one keeps them without duplicates. -/
theorem nodup_origins_addOrigins {r : NodeRef} (h : r.origins.Nodup) (os : List Origin) :
    (r.addOrigins os).origins.Nodup := by
  induction os generalizing r with
  | nil => exact h
  | cons o os ih => exact ih (nodup_origins_addOrigin h o)

/-- A reference stays one to its node, whatever origins it gets. -/
@[simp] theorem node_addOrigins (r : NodeRef) (os : List Origin) :
    (r.addOrigins os).node = r.node := by
  rw [addOrigins_eq]

/-! ## Fusing -/

/-- The reference with the origins of all the others. -/
def absorb (r : NodeRef) (rs : List NodeRef) : NodeRef :=
  rs.foldl (fun r s => r.addOrigins s.origins) r

/-- The first of some references to a node, with the origins of all. -/
def fuse : List NodeRef → Option NodeRef
  | [] => none
  | r :: rs => some (r.absorb rs)

/-- References are absorbed from the first on. -/
theorem absorb_cons (r s : NodeRef) (rs : List NodeRef) :
    r.absorb (s :: rs) = (r.addOrigins s.origins).absorb rs := rfl

/-- What a reference absorbs are origins. -/
theorem absorb_eq (r : NodeRef) (rs : List NodeRef) :
    r.absorb rs = { r with origins := (r.absorb rs).origins } := by
  induction rs generalizing r with
  | nil => rfl
  -- What the first one adds are origins, and so is what the others add.
  | cons s rs ih => rw [absorb_cons, ih, addOrigins_eq]

/-- References without origins add nothing. -/
theorem absorb_of_forall_eq_nil {r : NodeRef} {rs : List NodeRef}
    (h : ∀ s ∈ rs, s.origins = []) : r.absorb rs = r := by
  induction rs with
  | nil => rfl
  | cons s rs ih =>
    obtain ⟨hs, hrs⟩ := List.forall_mem_cons.mp h
    rw [absorb_cons, hs]
    exact ih hrs

/-- The origins are those of the reference and of all that it absorbs. -/
theorem mem_origins_absorb {r : NodeRef} {o : Origin} {rs : List NodeRef} :
    o ∈ (r.absorb rs).origins ↔ o ∈ r.origins ∨ ∃ s ∈ rs, o ∈ s.origins := by
  induction rs generalizing r with
  | nil => simp [absorb]
  | cons s rs ih =>
    rw [absorb_cons, ih, mem_origins_addOrigins, or_assoc]
    simp only [List.mem_cons, exists_eq_or_imp]

/-- Absorbing keeps the origins without duplicates. -/
theorem nodup_origins_absorb {r : NodeRef} (h : r.origins.Nodup) (rs : List NodeRef) :
    (r.absorb rs).origins.Nodup := by
  induction rs generalizing r with
  | nil => exact h
  | cons s rs ih => exact ih (nodup_origins_addOrigins h s.origins)

/-- The first reference decides on everything but the origins. -/
theorem fuse_eq_some {rs : List NodeRef} {r : NodeRef} (h : fuse rs = some r) :
    ∃ s, rs.head? = some s ∧ r = { s with origins := r.origins } := by
  cases rs with
  | nil => cases h
  | cons s rs =>
    obtain rfl := Option.some.inj h
    exact ⟨s, rfl, absorb_eq s rs⟩

/-- Fused references have the origins of all of them. -/
theorem mem_origins_of_fuse {rs : List NodeRef} {r : NodeRef} (h : fuse rs = some r)
    {o : Origin} : o ∈ r.origins ↔ ∃ s ∈ rs, o ∈ s.origins := by
  cases rs with
  | nil => cases h
  | cons s rs =>
    obtain rfl := Option.some.inj h
    rw [mem_origins_absorb]
    simp only [List.mem_cons, exists_eq_or_imp]

/-- Fused references have no origin twice if none of them has. -/
theorem nodup_origins_of_fuse {rs : List NodeRef} {r : NodeRef} (h : fuse rs = some r)
    (hrs : ∀ s ∈ rs, s.origins.Nodup) : r.origins.Nodup := by
  cases rs with
  | nil => cases h
  | cons s rs =>
    obtain rfl := Option.some.inj h
    exact nodup_origins_absorb (hrs s List.mem_cons_self) rs

/-- Only of no references at all comes nothing. -/
theorem fuse_eq_none {rs : List NodeRef} : fuse rs = none ↔ rs = [] := by
  cases rs <;> simp [fuse]

/-! ## Merging -/

/-- References that ascend strictly have nothing to fuse. -/
theorem fuse_filter_of_ascending {rs : List NodeRef}
    (h : rs.Pairwise fun a b => a.node < b.node) (n : NodeId) :
    fuse (rs.filter (·.node == n)) = rs.find? (·.node == n) := by
  rw [filter_of_ascending h n]
  cases rs.find? (·.node == n) <;> rfl

/-- Merging the first two references keeps the order. -/
theorem pairwise_merged {last s : NodeRef} {rs : List NodeRef}
    (h : (last :: s :: rs).Pairwise fun a b => a.node ≤ b.node) :
    (last.addOrigins s.origins :: rs).Pairwise fun a b => a.node ≤ b.node := by
  obtain ⟨hlast, hrs⟩ := List.pairwise_cons.mp h
  refine List.pairwise_cons.mpr ⟨fun r hr => ?_, hrs.of_cons⟩
  rw [node_addOrigins]
  exact hlast r (List.mem_cons_of_mem s hr)

/-- No merged reference is in front of the one that merging began with. -/
theorem le_of_mem_mergeFrom {last : NodeRef} {rs : List NodeRef}
    (h : (last :: rs).Pairwise fun a b => a.node ≤ b.node) :
    ∀ r ∈ mergeFrom last rs, last.node ≤ r.node := by
  -- Induction on what is still to be merged; `last` is the reference that is being gathered.
  induction rs generalizing last with
  | nil =>
    intro r hr
    rw [List.mem_singleton.mp hr]
    exact Std.le_refl _
  | cons s rs ih =>
    obtain ⟨hlast, hrs⟩ := List.pairwise_cons.mp h
    rw [mergeFrom]
    split
    -- The next reference is to the same node and goes into `last`, which stays in front.
    · intro r hr
      simpa using ih (pairwise_merged h) r hr
    · intro r hr
      -- Here `last` is finished, and the next one, which is behind it, is gathered.
      rcases List.mem_cons.mp hr with rfl | hr
      · exact Std.le_refl _
      · exact Std.le_trans (hlast s List.mem_cons_self) (ih hrs r hr)

/-- Merged references ascend strictly, and under an id is what the references to it fuse to. -/
theorem mergeFrom_spec {last : NodeRef} {rs : List NodeRef}
    (h : (last :: rs).Pairwise fun a b => a.node ≤ b.node) :
    ((mergeFrom last rs).Pairwise fun a b => a.node < b.node) ∧
      ∀ n, (mergeFrom last rs).find? (·.node == n) =
        fuse ((last :: rs).filter (·.node == n)) := by
  -- Induction on what is still to be merged, for any reference that is being gathered.
  induction rs generalizing last with
  | nil =>
    refine ⟨by simp [mergeFrom], fun n => ?_⟩
    by_cases hn : last.node = n <;> simp [mergeFrom, hn, fuse, absorb]
  | cons s rs ih =>
    obtain ⟨hlast, hrs⟩ := List.pairwise_cons.mp h
    rw [mergeFrom]
    split
    · next he =>
      -- `s` is another reference to the same node and goes into `last`.
      obtain ⟨hasc, hfind⟩ := ih (pairwise_merged h)
      refine ⟨hasc, fun n => ?_⟩
      rw [hfind]
      by_cases hn : last.node = n
      · rw [List.filter_cons_of_pos (by simp [hn]), List.filter_cons_of_pos (by simp [hn]),
          List.filter_cons_of_pos (by simp [← he, hn])]
        rfl
      · rw [List.filter_cons_of_neg (by simp [hn]), List.filter_cons_of_neg (by simp [hn]),
          List.filter_cons_of_neg (by simp [← he, hn])]
    · next hne =>
      obtain ⟨hasc, hfind⟩ := ih hrs
      -- `last` is finished, for all that follows are references to later nodes.
      have hlt : ∀ r ∈ mergeFrom s rs, last.node < r.node := fun r hr =>
        Std.lt_of_lt_of_le (Std.lt_of_le_of_ne (hlast s List.mem_cons_self) hne)
          (le_of_mem_mergeFrom hrs r hr)
      refine ⟨List.pairwise_cons.mpr ⟨hlt, hasc⟩, fun n => ?_⟩
      by_cases hn : last.node = n
      · -- Everything behind is a reference to another node.
        have hnil : (s :: rs).filter (·.node == n) = [] := by
          rw [← fuse_eq_none, ← hfind, List.find?_eq_none]
          intro r hr he
          exact Std.lt_irrefl ((hn.trans (beq_iff_eq.mp he).symm) ▸ hlt r hr)
        rw [List.find?_cons_of_pos (by simp [hn]), List.filter_cons_of_pos (by simp [hn]), hnil]
        rfl
      · rw [List.find?_cons_of_neg (by simp [hn]), List.filter_cons_of_neg (by simp [hn]), hfind]

/-- Merging leaves references that ascend strictly, and under an id what the references to it fuse
to. -/
theorem merge_spec {rs : List NodeRef} (h : rs.Pairwise fun a b => a.node ≤ b.node) :
    ((merge rs).Pairwise fun a b => a.node < b.node) ∧
      ∀ n, (merge rs).find? (·.node == n) = fuse (rs.filter (·.node == n)) := by
  cases rs with
  | nil => exact ⟨.nil, fun _ => rfl⟩
  | cons r rs => exact mergeFrom_spec h

end NodeRef

/-! ## The references of a document -/

namespace DocumentNodes

/-- References that are flagged as sorted ascend strictly. -/
def Sound (d : DocumentNodes) : Prop :=
  d.sorted = true → d.nodes.toList.Pairwise fun a b => a.node < b.node

/-- Without references nothing can be out of order. -/
theorem sound_empty : empty.Sound := fun _ => .nil

/-- A reference added behind the others keeps the flag honest, and any other takes it away. -/
theorem Sound.add {d : DocumentNodes} (h : d.Sound) (r : NodeRef) : (d.add r).Sound := by
  intro hs
  simp only [DocumentNodes.add, Bool.and_eq_true] at hs
  obtain ⟨hs, hlast⟩ := hs
  have hd := h hs
  simp only [DocumentNodes.add, Array.toList_push]
  refine List.pairwise_append.mpr ⟨hd, List.pairwise_singleton _ _, fun a ha b hb => ?_⟩
  -- Only the new reference has to be compared with the old ones.
  obtain rfl := List.mem_singleton.mp hb
  rw [← Array.getLast?_toList] at hlast
  -- The flag stays only if the new reference is behind the last one.
  obtain ⟨front, last, hfront⟩ := (List.eq_nil_or_concat d.nodes.toList).resolve_left
    (List.ne_nil_of_mem ha)
  rw [List.concat_eq_append] at hfront
  rw [hfront, List.getLast?_append, List.getLast?_singleton, Option.some_or] at hlast
  have hlt : last.node < b.node := NodeId.isLT_compare_iff.mp hlast
  rw [hfront] at ha hd
  -- All others are in front of the last one, so they are in front of the new one.
  rcases List.mem_append.mp ha with ha | ha
  · exact Std.lt_trans ((List.pairwise_append.mp hd).2.2 a ha last (by simp)) hlt
  · rw [List.mem_singleton.mp ha]
    exact hlt

/-- Sorted references ascend strictly, and under an id is what the references to it fuse to. -/
theorem Sound.sort_spec {d : DocumentNodes} (h : d.Sound) :
    (d.sort.nodes.toList.Pairwise fun a b => a.node < b.node) ∧
      ∀ n, d.sort.nodes.toList.find? (·.node == n) =
        NodeRef.fuse (d.nodes.toList.filter (·.node == n)) := by
  rw [sort]
  -- With the flag set the references ascend already, and each fuses to itself.
  split
  · next hs => exact ⟨h hs, fun n => (NodeRef.fuse_filter_of_ascending (h hs) n).symm⟩
  · obtain ⟨hasc, hfind⟩ := NodeRef.merge_spec (pairwise_mergeSort NodeRef.node d.nodes.toList)
    refine ⟨hasc, fun n => ?_⟩
    have hfuse := hfind n
    rw [filter_mergeSort] at hfuse
    exact hfuse

/-- After sorting the flag is honest. -/
theorem Sound.sort {d : DocumentNodes} (h : d.Sound) : d.sort.Sound :=
  fun _ => h.sort_spec.1

end DocumentNodes

namespace NodeSet

/-! ## Sets -/

/-- The references of every document are as they are flagged. -/
def Sound (s : NodeSet) : Prop := ∀ doc d, s.docs.get? doc = some d → d.Sound

/-- The sets that come of adding references one by one, of sorting, and of taking back the
flag of a document. -/
inductive Built : NodeSet → Prop
  | empty : Built .empty
  | add {s : NodeSet} (r : NodeRef) : Built s → Built (s.add r)
  | sort {s : NodeSet} : Built s → Built s.sort
  | noteSorted {s : NodeSet} (doc : DocId) (sorted : Bool) :
    Built s → Built (s.noteSorted doc sorted)

/-- In the empty set there is no document whose flag could be wrong. -/
theorem sound_empty : empty.Sound := by
  intro doc d h
  cases h

/-- Adding a reference keeps the flags of all documents honest. -/
theorem Sound.add {s : NodeSet} (h : s.Sound) (r : NodeRef) : (s.add r).Sound := by
  intro doc d hd
  simp only [NodeSet.add, SortedMap.get?_insert_eq] at hd
  -- Only the flag of the document of the reference may change.
  split at hd
  · obtain rfl := Option.some.inj hd
    refine DocumentNodes.Sound.add ?_ r
    cases hb : s.docs.get? r.doc with
    | none => exact DocumentNodes.sound_empty
    | some before => exact h r.doc before hb
  · exact h doc d hd

/-- Sorting all documents keeps their flags honest. -/
theorem Sound.sort {s : NodeSet} (h : s.Sound) : s.sort.Sound := by
  intro doc d hd
  simp only [NodeSet.sort, SortedMap.get?_mapValues, Option.map_eq_some_iff] at hd
  obtain ⟨d, hd, rfl⟩ := hd
  exact (h doc d hd).sort

/-- Taking back a flag cannot make it dishonest. -/
theorem Sound.noteSorted {s : NodeSet} (h : s.Sound) (doc : DocId) (sorted : Bool) :
    (s.noteSorted doc sorted).Sound := by
  intro doc' d hd
  simp only [NodeSet.noteSorted, SortedMap.get?_modify] at hd
  split at hd
  · obtain ⟨before, hbefore, rfl⟩ := Option.map_eq_some_iff.mp hd
    exact fun hs => h doc before hbefore (Bool.and_eq_true_iff.mp hs).1
  · exact h doc' d hd

/-- What is flagged as sorted ascends strictly. -/
theorem Sound.ascending_of_isSorted {s : NodeSet} {doc : DocId} (h : s.Sound)
    (hsorted : s.isSorted doc = true) : (s.nodes doc).Pairwise fun a b => a.node < b.node := by
  rw [isSorted] at hsorted
  rw [nodes]
  cases hd : s.docs.get? doc with
  | none => exact .nil
  | some d =>
    rw [hd] at hsorted
    exact h doc d hd hsorted

/-- The flags of a set that was built up are sound. -/
theorem Built.sound {s : NodeSet} (h : s.Built) : s.Sound := by
  induction h with
  | empty => exact sound_empty
  | add r _ ih => exact ih.add r
  | sort _ ih => exact ih.sort
  | noteSorted doc sorted _ ih => exact ih.noteSorted doc sorted

/-- A reference is added behind those of its own document. -/
theorem nodes_add (s : NodeSet) (r : NodeRef) (doc : DocId) :
    (s.add r).nodes doc = s.nodes doc ++ if r.doc = doc then [r] else [] := by
  simp only [nodes, NodeSet.add, SortedMap.get?_insert_eq]
  by_cases h : r.doc = doc
  · subst h
    simp only [if_true]
    cases s.docs.get? r.doc with
    | none => rfl
    | some d => simp [DocumentNodes.add]
  · rw [if_neg (Ne.symm h), if_neg h, List.append_nil]

/-- The references of a document are those that were added for it. -/
theorem nodes_foldl_add (s : NodeSet) (rs : List NodeRef) (doc : DocId) :
    (rs.foldl add s).nodes doc = s.nodes doc ++ rs.filter (·.doc == doc) := by
  induction rs generalizing s with
  | nil => simp
  | cons r rs ih =>
    rw [List.foldl_cons, ih, nodes_add, List.append_assoc]
    by_cases h : r.doc = doc <;> simp [h]

/-- Adding any number of references is a way to build up a set. -/
theorem built_foldl_add {s : NodeSet} (h : s.Built) (rs : List NodeRef) :
    (rs.foldl add s).Built := by
  induction rs generalizing s with
  | nil => exact h
  | cons r rs ih => exact ih (h.add r)

/-- The flag of a document says nothing about which references there are. -/
theorem nodes_noteSorted (s : NodeSet) (doc doc' : DocId) (sorted : Bool) :
    (s.noteSorted doc sorted).nodes doc' = s.nodes doc' := by
  simp only [nodes, NodeSet.noteSorted, SortedMap.get?_modify]
  by_cases h : doc' = doc
  · subst h
    rw [if_pos rfl]
    cases s.docs.get? doc' <;> rfl
  · rw [if_neg h]

/-- After sorting, the references of a document are its sorted ones. -/
theorem nodes_sort (s : NodeSet) (doc : DocId) : s.sort.nodes doc = s.sortedNodes doc := by
  simp only [nodes, sortedNodes, NodeSet.sort, SortedMap.get?_mapValues]
  cases s.docs.get? doc <;> rfl

/-- The sorted references of a document ascend strictly, whether it was sorted before or not. -/
theorem ascending_sortedNodes {s : NodeSet} (h : s.Built) (doc : DocId) :
    (s.sortedNodes doc).Pairwise fun a b => a.node < b.node := by
  rw [sortedNodes]
  split
  · exact .nil
  · next d hd => exact (h.sound doc d hd).sort_spec.1

/-- Under an id is what the references to it fuse to. -/
theorem find?_sortedNodes {s : NodeSet} (h : s.Built) (doc : DocId) (n : NodeId) :
    (s.sortedNodes doc).find? (·.node == n) =
      NodeRef.fuse ((s.nodes doc).filter (·.node == n)) := by
  simp only [sortedNodes, nodes]
  cases hd : s.docs.get? doc with
  | none => rfl
  | some d => exact (h.sound doc d hd).sort_spec.2 n

/-- A sorted reference is what the references to its node fuse to. -/
theorem mem_sortedNodes {s : NodeSet} (h : s.Built) {doc : DocId} {r : NodeRef} :
    r ∈ s.sortedNodes doc ↔
      NodeRef.fuse ((s.nodes doc).filter (·.node == r.node)) = some r := by
  rw [mem_iff_find?_of_ascending (ascending_sortedNodes h doc), find?_sortedNodes h]

/-- The nodes of a document are the same, sorted or not. -/
theorem exists_mem_sortedNodes {s : NodeSet} (h : s.Built) {doc : DocId} {n : NodeId} :
    (∃ r ∈ s.sortedNodes doc, r.node = n) ↔ ∃ r ∈ s.nodes doc, r.node = n := by
  have hfind := find?_sortedNodes h doc n
  constructor
  -- What was fused has the node of the references that it was fused from.
  · rintro ⟨r, hr, rfl⟩
    rw [(mem_iff_find?_of_ascending (ascending_sortedNodes h doc)).mp hr] at hfind
    obtain ⟨r', hr', _⟩ := NodeRef.fuse_eq_some hfind.symm
    have hmem := List.mem_of_mem_head? hr'
    exact ⟨r', (List.mem_filter.mp hmem).1, by simpa using (List.mem_filter.mp hmem).2⟩
  · rintro ⟨r, hr, rfl⟩
    -- There is a reference to the node, so what they fuse to is there.
    have hne : (s.nodes doc).filter (·.node == r.node) ≠ [] :=
      List.ne_nil_of_mem (List.mem_filter.mpr ⟨hr, by simp⟩)
    cases hf : NodeRef.fuse ((s.nodes doc).filter (·.node == r.node)) with
    | none => exact absurd (NodeRef.fuse_eq_none.mp hf) hne
    | some r' =>
      rw [hf] at hfind
      exact ⟨r', List.mem_of_find?_eq_some hfind, by simpa using List.find?_some hfind⟩

/-- A sorted reference has the origins of all references to its node. -/
theorem mem_origins_sortedNodes {s : NodeSet} (h : s.Built) {doc : DocId} {r : NodeRef}
    (hr : r ∈ s.sortedNodes doc) {o : Origin} :
    o ∈ r.origins ↔ ∃ r' ∈ s.nodes doc, r'.node = r.node ∧ o ∈ r'.origins := by
  rw [NodeRef.mem_origins_of_fuse ((mem_sortedNodes h).mp hr)]
  simp only [List.mem_filter, beq_iff_eq, and_assoc]

end NodeSet

end XmlIndex
