import XmlIndex.Proofs.DamagedJoins
import XmlIndex.Proofs.JoinBruteForce
import XmlIndex.Proofs.JoinedPairs
import XmlIndex.Proofs.SelectedNodes

/-! # The documents an answer vouches for

A query vouches for the documents it was asked for by naming them as those of its answer.
`Findings.answer` compares numbers for this: the documents with a node in the answer are among
those asked for, so there are as many only if they are the same ones
(`NodeSet.documentCount_eq_size_iff`).  Besides, no value may be missing, which says nothing new,
since a document of that collection would be without a node, and no entry may be rejected.

A walk through the stored values vouches for the documents if its visits are such that this
argument applies (`Findings.Visits`, `Index.vouchesFor_visited`).  Those of a lookup are, and so are
those of a join (`Index.queries_select_and_vouch`). -/

namespace XmlIndex

/-! ## Counting documents -/

namespace NodeSet

variable {s : NodeSet} {docs : DocumentSet} {doc : DocId}

/-- The documents of a set are those with a node in it. -/
theorem mem_documentIds : doc ∈ s.documentIds ↔ s.nodes doc ≠ [] := by
  simp only [documentIds, nodes, List.mem_map, List.mem_filter]
  constructor
  · rintro ⟨⟨doc, d⟩, ⟨hd, hne⟩, rfl⟩
    simpa [SortedMap.mem_entries_iff.mp hd] using hne
  · intro h
    cases hd : s.docs.get? doc with
    | none => simp [hd] at h
    | some d =>
      simp only [hd] at h
      exact ⟨(doc, d), ⟨SortedMap.mem_entries_iff.mpr hd, by simpa using h⟩, rfl⟩

/-- No document is counted twice. -/
theorem nodup_documentIds (s : NodeSet) : s.documentIds.Nodup :=
  s.docs.nodup_keys.sublist (List.filter_sublist.map _)

/-- If all nodes are of these documents, they have nodes in as many documents as there are just if
every document has one. -/
theorem documentCount_eq_size_iff (h : ∀ doc, s.nodes doc ≠ [] → (docs.get? doc).isSome) :
    s.documentCount = docs.size ↔ ∀ doc, (docs.get? doc).isSome → s.nodes doc ≠ [] := by
  have hkeys : ∀ doc, doc ∈ docs.byId.keys ↔ (docs.get? doc).isSome := fun doc =>
    SortedMap.mem_keys_iff
  have hsub : s.documentIds ⊆ docs.byId.keys := fun doc hdoc =>
    (hkeys doc).mpr (h doc (mem_documentIds.mp hdoc))
  have hsize : docs.size = docs.byId.keys.length := (List.length_map _).symm
  rw [documentCount, hsize]
  constructor
  -- As many different ones among those asked for are all of them.
  · intro hcount doc hdoc
    have hperm := (List.subperm_of_subset s.nodup_documentIds hsub).perm_of_length_le hcount.ge
    exact mem_documentIds.mp (hperm.mem_iff.mpr ((hkeys doc).mpr hdoc))
  · intro hall
    refine List.Perm.length_eq ((List.perm_ext_iff_of_nodup s.nodup_documentIds
      docs.byId.nodup_keys).mpr fun doc => ⟨fun hdoc => hsub hdoc, fun hdoc => ?_⟩)
    exact mem_documentIds.mpr (hall doc ((hkeys doc).mp hdoc))

/-- Sorting leaves no document without nodes. -/
theorem nodes_sort_eq_nil_iff (h : s.Built) : s.sort.nodes doc = [] ↔ s.nodes doc = [] := by
  rw [nodes_sort, List.eq_nil_iff_forall_not_mem, List.eq_nil_iff_forall_not_mem]
  constructor
  · intro hnil r hr
    obtain ⟨r', hr', _⟩ := (exists_mem_sortedNodes h).mpr ⟨r, hr, rfl⟩
    exact hnil r' hr'
  · intro hnil r hr
    obtain ⟨r', hr', _⟩ := (exists_mem_sortedNodes h).mp ⟨r, hr, rfl⟩
    exact hnil r' hr'

/-- The set names the documents as its own just if `p` holds, and else no documents. -/
structure VouchesFor (s : NodeSet) (docs : DocumentSet) (p : Prop) : Prop where
  documentSet?_eq_some_iff : s.documentSet? = some docs ↔ p
  documentSet?_eq_none : ¬ p → s.documentSet? = none

/-- What a set vouches for may be put in other words. -/
theorem VouchesFor.congr {p q : Prop} (h : s.VouchesFor docs p) (hpq : p ↔ q) :
    s.VouchesFor docs q :=
  ⟨h.documentSet?_eq_some_iff.trans hpq,
    fun hq => h.documentSet?_eq_none fun hp => hq (hpq.mp hp)⟩

end NodeSet

namespace DocumentSet

variable {s : DocumentSet} {ds : List Document}

/-- The collections of the documents. -/
theorem mem_collections_iff {c : CollectionId} :
    c ∈ s.collections ↔ ∃ id d, s.get? id = some d ∧ d.collection = c := by
  constructor
  · intro hc
    obtain ⟨e, he, rfl⟩ := SortedMap.mem_keys_ofList.mp hc
    obtain ⟨d, hd, rfl⟩ := List.mem_map.mp he
    obtain ⟨id, hid⟩ := SortedMap.mem_values_iff.mp hd
    exact ⟨id, d, hid, rfl⟩
  · rintro ⟨id, d, hd, rfl⟩
    exact mem_collections_of_get? hd

/-- What holds of the documents holds of them by their numbers. -/
theorem forall_get?_ofList {p : DocId → Prop} :
    (∀ doc, ((ofList ds).get? doc).isSome → p doc) ↔
      ∀ d, (ofList ds).get? d.id = some d → p d.id := by
  constructor
  · exact fun h d hd => h d.id (by rw [hd]; rfl)
  · intro h doc hdoc
    obtain ⟨d, hd⟩ := Option.isSome_iff_exists.mp hdoc
    obtain rfl := id_of_get?_ofList hd
    exact h d hd

end DocumentSet

/-! ## Walks that vouch -/

namespace Findings

/-- A visit takes from a block references to nodes of its document, if that is asked for, and takes
completeness back unless it accepts the block as it is. -/
structure Visits (docs : DocumentSet) (accepts : Block → Prop)
    (go : Findings → Block → Findings) : Prop where
  complete : ∀ f b, (go f b).complete = true ↔ f.complete = true ∧ accepts b
  others : ∀ b, docs.get? b.doc = none → accepts b
  documentSet : ∀ f b, (go f b).nodes.documentSet? = f.nodes.documentSet?
  adds : ∀ f b, ∃ rs : List NodeRef, (∀ r ∈ rs, r.doc = b.doc ∧ (docs.get? b.doc).isSome) ∧
    ∀ doc, (go f b).nodes.nodes doc = f.nodes.nodes doc ++ rs.filter (·.doc == doc)

variable {docs : DocumentSet} {accepts : Block → Prop} {go : Findings → Block → Findings}
  {values : List (Option Bytes)}

namespace Visits

variable (h : Visits docs accepts go)

include h

/-- Nodes of a document are found in a block of it, and only if it was asked for. -/
theorem nodes_foldl_ne_nil {doc : DocId} (bs : List Block) {f : Findings}
    (hne : (bs.foldl go f).nodes.nodes doc ≠ []) :
    f.nodes.nodes doc ≠ [] ∨ (docs.get? doc).isSome ∧ ∃ b ∈ bs, b.doc = doc := by
  -- Induction on the blocks: the node is found in a later block, or the first one has added it.
  induction bs generalizing f with
  | nil => exact .inl hne
  | cons b bs ih =>
    rcases ih hne with hf | ⟨hdoc, b', hb', he⟩
    · obtain ⟨rs, hrs, hnodes⟩ := h.adds f b
      rw [hnodes] at hf
      by_cases hnil : rs.filter (·.doc == doc) = []
      · rw [hnil, List.append_nil] at hf
        exact .inl hf
      · obtain ⟨r, hr⟩ := List.exists_mem_of_ne_nil _ hnil
        obtain ⟨hr, he⟩ := List.mem_filter.mp hr
        obtain ⟨hb, hdoc⟩ := hrs r hr
        obtain rfl : b.doc = doc := hb.symm.trans (beq_iff_eq.mp he)
        exact .inr ⟨hdoc, b, List.mem_cons_self, rfl⟩
    · exact .inr ⟨hdoc, b', List.mem_cons_of_mem b hb', he⟩

/-- Nodes of a document are found in its blocks, and only if it was asked for. -/
theorem nodes_visited_ne_nil {doc : DocId} {f : Findings}
    (hne : (Index.visited go values f).nodes.nodes doc ≠ []) :
    f.nodes.nodes doc ≠ [] ∨
      (docs.get? doc).isSome ∧ ∃ v ∈ values, ∃ b ∈ Index.blocksOf v, b.doc = doc := by
  -- Induction on the values, as on the blocks of one.
  induction values generalizing f with
  | nil => exact .inl hne
  | cons v values ih =>
    have hlater : ∀ {f : Findings}, (Index.visited go values f).nodes.nodes doc ≠ [] →
        f.nodes.nodes doc ≠ [] ∨
          (docs.get? doc).isSome ∧ ∃ v' ∈ v :: values, ∃ b ∈ Index.blocksOf v', b.doc = doc := by
      intro f hf
      rcases ih hf with hf | ⟨hdoc, v', hv', hb⟩
      · exact .inl hf
      · exact .inr ⟨hdoc, v', List.mem_cons_of_mem v hv', hb⟩
    cases v with
    | none => exact hlater (f := { f with complete := false }) hne
    | some value =>
      rcases hlater hne with hf | hfound
      · rcases h.nodes_foldl_ne_nil _ hf with hf | ⟨hdoc, hb⟩
        · exact .inl hf
        · exact .inr ⟨hdoc, some value, List.mem_cons_self, hb⟩
      · exact .inr hfound

/-- The findings stay complete while every block is accepted. -/
theorem complete_foldl (bs : List Block) (f : Findings) :
    (bs.foldl go f).complete = true ↔ f.complete = true ∧ ∀ b ∈ bs, accepts b := by
  induction bs generalizing f with
  | nil => simp
  | cons b bs ih => rw [List.foldl_cons, ih, h.complete, List.forall_mem_cons, and_assoc]

/-- The findings are complete if no value was missing and every block was accepted. -/
theorem complete_visited (f : Findings) :
    (Index.visited go values f).complete = true ↔ f.complete = true ∧
      ∀ v ∈ values, v.isSome ∧ ∀ b ∈ Index.blocksOf v, accepts b := by
  induction values generalizing f with
  | nil => simp [Index.visited]
  | cons v values ih =>
    -- A missing value makes the findings incomplete for good.
    cases v with
    | none => simp [Index.visited, ih]
    | some value =>
      rw [Index.visited, ih, h.complete_foldl, List.forall_mem_cons, and_assoc]
      simp [Index.blocksOf]

/-- Visiting blocks names no documents. -/
theorem documentSet?_foldl (bs : List Block) (f : Findings) :
    (bs.foldl go f).nodes.documentSet? = f.nodes.documentSet? := by
  induction bs generalizing f with
  | nil => rfl
  | cons b bs ih => rw [List.foldl_cons, ih, h.documentSet]

/-- Visiting values names no documents. -/
theorem documentSet?_visited (f : Findings) :
    (Index.visited go values f).nodes.documentSet? = f.nodes.documentSet? := by
  induction values generalizing f with
  | nil => rfl
  | cons v values ih =>
    cases v with
    | none => exact ih _
    | some value => rw [Index.visited, ih, h.documentSet?_foldl]

end Visits

/-- An answer vouches for the documents asked for if the findings are complete and every document
has a node in them. -/
theorem vouchesFor_answer {f : Findings} (hnone : f.nodes.documentSet? = none)
    (hdocs : ∀ doc, f.nodes.nodes doc ≠ [] → (docs.get? doc).isSome) :
    (f.answer docs).VouchesFor docs
      (f.complete = true ∧ ∀ doc, (docs.get? doc).isSome → f.nodes.nodes doc ≠ []) := by
  -- Only documents asked for have nodes, so counting them is enough.
  rw [← NodeSet.documentCount_eq_size_iff hdocs]
  by_cases h : f.complete = true ∧ f.nodes.documentCount = docs.size
  · rw [answer, if_pos (by simp [h])]
    exact ⟨iff_of_true rfl h, fun hnot => absurd h hnot⟩
  · rw [answer, if_neg (by simpa using h)]
    exact ⟨iff_of_false (by simp [hnone]) h, fun _ => hnone⟩

end Findings

namespace Index

variable {i : Index} {kind : NameKind} {name : QName} {ds : List Document}

/-- A walk through the values of documents at home in their collections vouches for them if every
one has a node in the findings and all their blocks were accepted. -/
theorem vouchesFor_visited {accepts : Block → Prop} {go : Findings → Block → Findings}
    {f : Findings} (h : Findings.Visits (.ofList ds) accepts go)
    (hhome : ∀ d, (DocumentSet.ofList ds).get? d.id = some d → i.store.Homes d)
    (hf : f.complete = (visited go ((DocumentSet.ofList ds).collections.map
      (i.storedValue? kind · name)) {}).complete)
    (hnone : f.nodes.documentSet? = none)
    (hnodes : ∀ doc, f.nodes.nodes doc = [] ↔ (visited go ((DocumentSet.ofList ds).collections.map
      (i.storedValue? kind · name)) {}).nodes.nodes doc = []) :
    (f.answer (.ofList ds)).VouchesFor (.ofList ds)
      ((∀ d, (DocumentSet.ofList ds).get? d.id = some d → f.nodes.nodes d.id ≠ []) ∧
        ∀ d, (DocumentSet.ofList ds).get? d.id = some d →
          ∀ b ∈ i.storedBlocks kind d.collection name, b.doc = d.id → accepts b) := by
  -- The nodes of a document come from a block of it, in its collection.
  have hfound : ∀ doc, f.nodes.nodes doc ≠ [] → ((DocumentSet.ofList ds).get? doc).isSome ∧
      ∃ c, ∃ b ∈ i.storedBlocks kind c name, b.doc = doc := by
    intro doc hne
    rcases h.nodes_visited_ne_nil ((not_congr (hnodes doc)).mp hne) with hnil | ⟨hdoc, v, hv, hb⟩
    · exact absurd rfl hnil
    · obtain ⟨c, _, rfl⟩ := List.mem_map.mp hv
      exact ⟨hdoc, c, hb⟩
  refine (Findings.vouchesFor_answer hnone fun doc hne => (hfound doc hne).1).congr ?_
  -- What is left is that every block of a document asked for is accepted.
  rw [DocumentSet.forall_get?_ofList, hf, h.complete_visited, and_comm]
  refine and_congr_right fun hall => ?_
  rw [List.forall_mem_map]
  constructor
  · rintro ⟨_, hcollections⟩ d hd b hb _
    exact (hcollections _ (DocumentSet.mem_collections_of_get? hd)).2 b hb
  · intro haccepts
    refine ⟨rfl, fun c hc => ⟨?_, fun b hb => ?_⟩⟩
    · -- A document of the collection has a node, so there is a value.
      obtain ⟨id, d, hd, rfl⟩ := DocumentSet.mem_collections_iff.mp hc
      obtain rfl := DocumentSet.id_of_get?_ofList hd
      obtain ⟨_, c, b, hb, hdoc⟩ := hfound d.id (hall d hd)
      obtain rfl := collection_of_mem_storedBlocks (hhome d hd) hb hdoc
      obtain ⟨value, hv, _⟩ := mem_storedBlocks.mp hb
      rw [hv]
      rfl
    -- A block of no document asked for is accepted whatever it holds.
    · cases hd : (DocumentSet.ofList ds).get? b.doc with
      | none => exact h.others b hd
      | some d =>
        have hdoc := DocumentSet.id_of_get?_ofList hd
        rw [← hdoc] at hd
        obtain rfl := collection_of_mem_storedBlocks (hhome d hd) hb hdoc.symm
        exact haccepts d hd b hb hdoc.symm

end Index

/-! ## Lookups -/

namespace Findings

variable {kind : NameKind} {select? : Option Selector}

/-- No entry of the block is rejected, if it is of a document asked for. -/
def Accepts (kind : NameKind) (select? : Option Selector) (docs : DocumentSet) (b : Block) :
    Prop :=
  ∀ d, docs.get? b.doc = some d → ∀ e ∈ b.content, choice kind select? d e ≠ none

/-- Adding references names no documents. -/
theorem documentSet?_foldl_add (s : NodeSet) (rs : List NodeRef) :
    (rs.foldl .add s).documentSet? = s.documentSet? := by
  induction rs generalizing s with
  | nil => rfl
  | cons r rs ih => exact ih (s.add r)

/-- A lookup goes through the blocks as a visit that vouches has to. -/
theorem visits_added {ds : List Document} (h : ∀ select ∈ select?, select.KeepsToDocument) :
    Visits (.ofList ds) (Accepts kind select? (.ofList ds))
      fun f b => added kind select? (.ofList ds) b f where
  complete := by
    intro f b
    unfold added Accepts
    -- A block of another document is skipped.
    cases (DocumentSet.ofList ds).get? b.doc with
    | none => simp
    | some d => simp [foldl_addEntry_eq, Option.isSome_iff_ne_none]
  others := by
    intro b hb d hd
    cases hb.symm.trans hd
  documentSet := by
    intro f b
    unfold added
    cases (DocumentSet.ofList ds).get? b.doc with
    | none => rfl
    | some d =>
      simp only [foldl_addEntry_eq]
      exact documentSet?_foldl_add f.nodes _
  adds := by
    intro f b
    -- What a block adds are references that are chosen from it.
    refine ⟨chosen kind select? (.ofList ds) b, fun r hr => ?_, nodes_added f b⟩
    unfold chosen taken at hr
    cases hd : (DocumentSet.ofList ds).get? b.doc with
    | none =>
      rw [hd] at hr
      cases hr
    | some d =>
      rw [hd] at hr
      rw [← DocumentSet.id_of_get?_ofList hd]
      exact ⟨doc_of_mem_filterMap_choice h d b r hr, rfl⟩

end Findings

/-! ## Joins -/

/-- A join with a block adds references to nodes of the document. -/
theorem JoinStep.exists_of_joinBlock {j : JoinStep} {ancestors : List NodeRef}
    {found found' : NodeSet} {b : Block} (h : j.joinBlock ancestors found b = .ok found') :
    ∃ rs : List NodeRef, (∀ r ∈ rs, r.doc = j.doc) ∧ found' = rs.foldl .add found := by
  refine ⟨(j.taken ancestors found b).map fun pair => j.result pair.2 pair.1, fun r hr => ?_, ?_⟩
  · obtain ⟨pair, _, rfl⟩ := List.mem_map.mp hr
    rw [result_eq]
  · rw [List.foldl_map]
    exact found_joinBlock h

namespace Findings

variable {kind : NameKind} {axis : Axis} {ds : List Document} {context : NodeSet}
  {contextId? : Option UInt32}

/-- A join adds references to nodes of the document of the block, if that is asked for. -/
theorem exists_of_joinBlock {f f' : Findings} {b : Block}
    (h : joinBlock kind axis (.ofList ds) context contextId? f b = .ok f') :
    ∃ rs : List NodeRef,
      (∀ r ∈ rs, r.doc = b.doc ∧ ((DocumentSet.ofList ds).get? b.doc).isSome) ∧
      f' = { f with nodes := rs.foldl .add f.nodes } := by
  unfold joinBlock at h
  -- A block of another document is skipped.
  split at h
  · obtain rfl := Except.ok.inj h
    exact ⟨[], fun _ hr => absurd hr List.not_mem_nil, rfl⟩
  · next d hd =>
    cases hjoin : JoinStep.joinBlock { doc := d.id, type := kind.nodeType, axis, contextId? }
      (context.sortedNodes d.id) f.nodes b with
    | error e =>
      simp only [hjoin] at h
      cases h
    | ok nodes =>
      simp only [hjoin] at h
      obtain rfl := Except.ok.inj h
      obtain ⟨rs, hrs, rfl⟩ := JoinStep.exists_of_joinBlock hjoin
      refine ⟨rs, fun r hr => ⟨?_, by rw [hd]; rfl⟩, rfl⟩
      rw [hrs r hr, ← DocumentSet.id_of_get?_ofList hd]

/-- A visit of a join that fails adds nothing. -/
theorem exists_afterVisit (f : Findings) (b : Block) :
    ∃ rs : List NodeRef,
      (∀ r ∈ rs, r.doc = b.doc ∧ ((DocumentSet.ofList ds).get? b.doc).isSome) ∧
      Index.afterVisit (joinBlock kind axis (.ofList ds) context contextId?) f b =
        { f with nodes := rs.foldl .add f.nodes } := by
  unfold Index.afterVisit
  -- A block that fails is passed over by `afterVisit`.
  cases h : joinBlock kind axis (.ofList ds) context contextId? f b with
  | ok f' => exact exists_of_joinBlock h
  | error e => exact ⟨[], fun _ hr => absurd hr List.not_mem_nil, rfl⟩

/-- A visit of a block adds to a set that was built. -/
theorem built_afterVisit {f : Findings} (h : f.nodes.Built) (b : Block) :
    (Index.afterVisit (joinBlock kind axis (.ofList ds) context contextId?) f b).nodes.Built := by
  obtain ⟨rs, _, hf⟩ := exists_afterVisit f b
  rw [hf]
  exact NodeSet.built_foldl_add h rs

/-- A join goes through the blocks as a visit that vouches has to; it rejects nothing. -/
theorem visits_joinBlock :
    Visits (.ofList ds) (fun _ => True)
      (Index.afterVisit (joinBlock kind axis (.ofList ds) context contextId?)) where
  complete := by
    intro f b
    obtain ⟨rs, _, hf⟩ := exists_afterVisit f b
    rw [hf, and_true]
  others := fun _ _ => trivial
  documentSet := by
    intro f b
    obtain ⟨rs, _, hf⟩ := exists_afterVisit f b
    rw [hf]
    exact documentSet?_foldl_add f.nodes rs
  adds := by
    intro f b
    obtain ⟨rs, hrs, hf⟩ := exists_afterVisit f b
    refine ⟨rs, hrs, fun doc => ?_⟩
    rw [hf]
    exact NodeSet.nodes_foldl_add f.nodes rs doc

end Findings

/-! ## Queries -/

namespace Index

/-- What a lookup finds of a name in some documents: for every document what the selector takes
from the entries stored for it, in stored order.  Where this is flagged as sorted it ascends
strictly, and the documents are vouched for if all have a node in it and no entry was rejected. -/
structure Selected (i : Index) (kind : NameKind) (name : QName) (select? : Option Selector)
    (ds : List Document) (found : NodeSet) : Prop where
  nodes : ∀ d, (DocumentSet.ofList ds).get? d.id = some d →
    found.nodes d.id = (i.storedEntries kind d name).filterMap (Findings.choice kind select? d)
  others : ∀ doc, (DocumentSet.ofList ds).get? doc = none → found.nodes doc = []
  ascending : ∀ doc, found.isSorted doc = true →
    (found.nodes doc).Pairwise fun a b => a.node < b.node
  vouches : found.VouchesFor (.ofList ds)
    ((∀ d, (DocumentSet.ofList ds).get? d.id = some d → found.nodes d.id ≠ []) ∧
      ∀ d, (DocumentSet.ofList ds).get? d.id = some d →
        ∀ e ∈ i.storedEntries kind d name, Findings.choice kind select? d e ≠ none)

variable {i : Index} {kind : NameKind} {name : QName} {ds : List Document}

/-- No block of a document is rejected in part just if no entry stored for it is rejected. -/
theorem forall_accepts_iff {select? : Option Selector} {d : Document}
    (hd : (DocumentSet.ofList ds).get? d.id = some d) :
    (∀ b ∈ i.storedBlocks kind d.collection name, b.doc = d.id →
        Findings.Accepts kind select? (.ofList ds) b) ↔
      ∀ e ∈ i.storedEntries kind d name, Findings.choice kind select? d e ≠ none := by
  constructor
  · intro haccepts e he
    obtain ⟨b, hb, he⟩ := List.mem_flatMap.mp he
    obtain ⟨hb, hdoc⟩ := List.mem_filter.mp hb
    have hdoc := beq_iff_eq.mp hdoc
    exact haccepts b hb hdoc d (hdoc ▸ hd) e he
  · intro hentries b hb hdoc d' hd' e he
    obtain rfl : d = d' := Option.some.inj (hd.symm.trans (hdoc ▸ hd'))
    exact hentries e (List.mem_flatMap.mpr
      ⟨b, List.mem_filter.mpr ⟨hb, beq_iff_eq.mpr hdoc⟩, he⟩)

section Queries

variable (hfree : i.store.isFree .read) (hget : i.store.planned .get = 0)
  (hkeys : ∀ c ∈ (DocumentSet.ofList ds).collections, (i.key? kind c name).isSome)
  (hstore : i.store.Decodable)
  (hhome : ∀ d, (DocumentSet.ofList ds).get? d.id = some d → i.store.Homes d)

include hfree hget hkeys hstore hhome

/-- Every lookup whose selector keeps to its document selects what it should. -/
theorem lookup_selected {select? : Option Selector}
    (hselect : ∀ select ∈ select?, select.KeepsToDocument) :
    ∃ found i', lookup kind (.ofList ds) name select? i = .ok found i' ∧ i'.store = i.store ∧
      Selected i kind name select? ds found := by
  obtain ⟨f, i', hlookup, hsame, hf, hbuilt, hnodes, hothers⟩ :=
    exists_lookup hfree hget hkeys hstore hhome hselect
  have hanswer : ∀ doc, (f.answer (.ofList ds)).nodes doc = f.nodes.nodes doc :=
    Findings.nodes_answer f (.ofList ds)
  have hvisits : Findings.Visits (.ofList ds) (Findings.Accepts kind select? (.ofList ds)) _ :=
    Findings.visits_added hselect
  have hvouches := vouchesFor_visited hvisits hhome (congrArg Findings.complete hf)
    (hf ▸ hvisits.documentSet?_visited {}) (fun doc => by rw [hf])
  -- The answer has the nodes that were found; it only names documents in addition.
  refine ⟨f.answer (.ofList ds), i', hlookup, hsame, fun d hd => ?_, fun doc hdoc => ?_,
    fun doc hsorted => ?_, ?_⟩
  · rw [hanswer, hnodes d hd]
  · rw [hanswer, hothers doc hdoc]
  · rw [hanswer]
    -- The flag is that of what was found, which was built by additions.
    refine hbuilt.sound.ascending_of_isSorted ?_
    rw [Findings.answer] at hsorted
    split at hsorted <;> exact hsorted
  · simp only [hanswer]
    refine hvouches.congr (and_congr_right fun _ => forall_congr' fun d => ?_)
    exact forall_congr' fun hd => forall_accepts_iff hd

/-- A join vouches for the documents if every one has a node in the answer. -/
theorem join_vouches (axis : Axis) (context : NodeSet) (contextId? : Option UInt32) :
    ∃ found i', join kind axis (.ofList ds) name context contextId? i = .ok found i' ∧
      i'.store = i.store ∧ found.VouchesFor (.ofList ds)
        (∀ d, (DocumentSet.ofList ds).get? d.id = some d → found.nodes d.id ≠ []) := by
  let docs := DocumentSet.ofList ds
  let visit := Findings.joinBlock kind axis docs context contextId?
  have hvisit : ∀ b, b.entries = .ok b.content → ∀ f, visit f b = .ok (afterVisit visit f b) := by
    intro b hb f
    obtain ⟨f', hf'⟩ : ∃ f', visit f b = .ok f' :=
      joinBlock_ok_iff.mpr fun _ _ _ => Block.joinable_of_entries hb
    rw [afterVisit, hf']
  obtain ⟨i', hwalk, hsame⟩ :=
    visitValues_eq_ok hfree hget hkeys (fun c _ => hstore.visitable hvisit kind c name) {}
  let f := visited (afterVisit visit) (docs.collections.map (i.storedValue? kind · name)) {}
  have hbuilt : f.nodes.Built :=
    built_visited (fun f b hf => Findings.built_afterVisit hf b) _ .empty
  -- Sorting the nodes changes nothing that counts for the documents.
  have hvouches := vouchesFor_visited (f := { f with nodes := f.nodes.sort })
    Findings.visits_joinBlock hhome rfl (Findings.visits_joinBlock.documentSet?_visited {})
    fun doc => NodeSet.nodes_sort_eq_nil_iff hbuilt
  refine ⟨_, i', Action.bind_eq_ok_iff.mpr ⟨f, i', hwalk, rfl⟩, hsame, ?_⟩
  simp only [Findings.nodes_answer]
  exact hvouches.congr (and_iff_left fun _ _ _ _ _ => trivial)

end Queries

/-- A lookup answers what its selector takes from the stored entries, and vouches for the documents
just if all have a node in the answer and none of their entries was rejected; a join vouches for
them just if all have a node in the answer. -/
theorem queries_select_and_vouch (i : Index) (kind : NameKind) (name : QName)
    (ds : List Document) (hfree : i.store.isFree .read) (hget : i.store.planned .get = 0)
    (hkeys : ∀ c ∈ (DocumentSet.ofList ds).collections, (i.key? kind c name).isSome)
    (hstore : i.store.Decodable)
    (hhome : ∀ d, (DocumentSet.ofList ds).get? d.id = some d → i.store.Homes d) :
    (∀ select? : Option Selector, (∀ select ∈ select?, select.KeepsToDocument) →
      ∃ found i', lookup kind (.ofList ds) name select? i = .ok found i' ∧
        i'.store = i.store ∧ Selected i kind name select? ds found) ∧
    ∀ (axis : Axis) (context : NodeSet) (contextId? : Option UInt32),
      ∃ found i', join kind axis (.ofList ds) name context contextId? i = .ok found i' ∧
        i'.store = i.store ∧ found.VouchesFor (.ofList ds)
          (∀ d, (DocumentSet.ofList ds).get? d.id = some d → found.nodes d.id ≠ []) :=
  ⟨fun _ hselect => lookup_selected hfree hget hkeys hstore hhome hselect,
    join_vouches hfree hget hkeys hstore hhome⟩

/-- Takes all nodes but one. -/
def allBut (n : NodeId) : Selector := fun document n' =>
  if n' = n then none else Selector.all document n'

/-- A lookup in a value with two blocks, with a selector that passes over one node. -/
theorem queries_select_and_vouch_twoBlocks :
    (allBut ⟨[1, 1]⟩).KeepsToDocument ∧ twoBlocks.store.Decodable ∧
      ∃ found i', lookup .attrId (.ofList [⟨1, 7, "/db/a.xml"⟩]) { localName := "id" }
          (some (allBut ⟨[1, 1]⟩)) twoBlocks = .ok found i' ∧
        i'.store = twoBlocks.store ∧
        Selected twoBlocks .attrId { localName := "id" } (some (allBut ⟨[1, 1]⟩))
          [⟨1, 7, "/db/a.xml"⟩] found := by
  have hselect : (allBut ⟨[1, 1]⟩).KeepsToDocument := by
    intro document n r hr
    unfold allBut at hr
    split at hr
    · cases hr
    · exact Option.some.inj hr ▸ rfl
  -- The one value is under the key of the collection the document is in.
  have hhome : ∀ d, (DocumentSet.ofList [⟨1, 7, "/db/a.xml"⟩]).get? d.id = some d →
      twoBlocks.store.Homes d := by
    intro d hd k value hv b _ _
    rw [Key.toBytes_inj (value?_twoBlocks hv).1, DocumentSet.eq_of_get?_singleton hd]
    rfl
  refine ⟨hselect, sound_twoBlocks.decodable, ?_⟩
  exact (queries_select_and_vouch twoBlocks .attrId { localName := "id" } [⟨1, 7, "/db/a.xml"⟩]
    rfl rfl (fun _ _ => rfl) sound_twoBlocks.decodable hhome).1 (some (allBut ⟨[1, 1]⟩))
    fun _ h => Option.mem_some.mp h ▸ hselect

end Index

end XmlIndex
