import XmlIndex.Proofs.OpenCalls
import XmlIndex.Proofs.SelectedNodes
import XmlIndex.Proofs.StoredValues

/-! # The index refines a plain map

`Index.Run.refines_map`: every run of the index is a run of the plain map, a flush that nothing
hinders stops only where the map says so, and a lookup answers the part of the map that it was
asked for. -/

namespace XmlIndex

namespace Index

/-! ## What is held for a document -/

section Stored

variable {i : Index} {kind : NameKind} {name : QName} {document : Document} {s : Store}
  {t : SymbolTable} {doc : DocId} {bs : List Block}

/-- A document that is held only in its collection has its blocks there. -/
theorem homes_of_atHome {home : DocId → CollectionId} (hs : s.IntactFor t)
    (hhome : (s.nodeMap t).AtHome home) (hd : document.collection = home document.id) :
    s.Homes document := by
  intro k value hv b hb hdoc
  obtain ⟨bs, hbs, rfl⟩ := hs.values k.toBytes value hv
  obtain ⟨kind, collection, name, k', hk, hkey⟩ := hs.keys k.toBytes (by rw [hv]; rfl)
  obtain rfl := Key.toBytes_inj hkey
  rw [hbs.scan_eq] at hb
  -- A block is not empty, so the document is held there with a node.
  obtain ⟨n, hn⟩ := Block.exists_addressIn_ne_none hbs ⟨b, hb, hdoc⟩
  rw [(Key.kind_of_lookup? hk).2, hd]
  refine hhome kind collection name document.id n ?_
  rwa [Store.nodeMap_of_lookup? hk, hv, blocksOf_valueOf hbs]

/-- A query reads the value under the key of a name whose codes are given. -/
theorem storedValue?_eq (hs : i.store.IntactFor i.symbols) (kind : NameKind)
    (collection : CollectionId) (name : QName) :
    i.storedValue? kind collection name =
      (Key.lookup? i.symbols kind collection name).bind fun k => i.store.value? k.toBytes := by
  rw [storedValue?]
  cases hk : Key.lookup? i.symbols kind collection name with
  | some k => rw [key?, Key.ofName_of_lookup? hk]
  | none =>
    cases hkey : i.key? kind collection name with
    | none => rfl
    | some k =>
      -- The query gives the name its codes, and under a new key there is nothing.
      obtain ⟨t, hof⟩ := ofName_of_key? hkey
      obtain ⟨hlookup, hext⟩ := Key.ofName_eq_ok hof
      exact Store.value?_of_new_name hs.keys hext hk hlookup

/-- The contents are the first of the stored entries. -/
theorem find?_storedEntries (hs : i.store.IntactFor i.symbols) (kind : NameKind)
    (document : Document) (name : QName) (n : NodeId) :
    ((i.storedEntries kind document name).find? (·.node == n)).map (·.address) =
      i.nodeMap kind document.collection name document.id n := by
  rw [storedEntries, storedBlocks, storedValue?_eq hs, nodeMap]
  -- A name without codes has no entries.
  cases hk : Key.lookup? i.symbols kind document.collection name with
  | none =>
    rw [Store.nodeMap_of_lookup?_eq_none hk]
    rfl
  | some k =>
    rw [Store.nodeMap_of_lookup? hk]
    rfl

end Stored

end Index

/-! ## Lookups -/

namespace Findings

variable {kind : NameKind}

/-- The reference to a stored entry. -/
def refTo (kind : NameKind) (d : Document) (e : Entry) : NodeRef :=
  { doc := d.id, node := e.node, address := e.address, type? := some kind.nodeType }

/-- Entries come without origins, so those of one node fuse to the first. -/
theorem fuse_map_refTo (d : Document) (es : List Entry) :
    NodeRef.fuse (es.map (refTo kind d)) = es.head?.map (refTo kind d) := by
  cases es with
  | nil => rfl
  | cons e es =>
    refine congrArg some (NodeRef.absorb_of_forall_eq_nil fun r hr => ?_)
    obtain ⟨_, _, rfl⟩ := List.mem_map.mp hr
    rfl

/-- Sorting an answer sorts what was found. -/
theorem nodes_sort_answer (f : Findings) (docs : DocumentSet) (doc : DocId) :
    (f.answer docs).sort.nodes doc = f.nodes.sortedNodes doc := by
  rw [NodeSet.nodes_sort, answer]
  split <;> rfl

end Findings

namespace Index

/-- A lookup finds the stored entries of the documents asked for, in stored order. -/
theorem lookup_eq_ok {i : Index} {kind : NameKind} {name : QName} {ds : List Document}
    (hfree : i.store.isFree .read) (hget : i.store.planned .get = 0)
    (hkeys : ∀ c ∈ (DocumentSet.ofList ds).collections, (i.key? kind c name).isSome)
    (hstore : i.store.Sound)
    (hhome : ∀ d, (DocumentSet.ofList ds).get? d.id = some d → i.store.Homes d) :
    ∃ (f : Findings) (i' : Index),
      lookup kind (.ofList ds) name none i = .ok (f.answer (.ofList ds)) i' ∧
      i'.store = i.store ∧ f.nodes.Built ∧
      (∀ d, (DocumentSet.ofList ds).get? d.id = some d →
        f.nodes.nodes d.id = (i.storedEntries kind d name).map (Findings.refTo kind d)) ∧
      ∀ doc, (DocumentSet.ofList ds).get? doc = none → f.nodes.nodes doc = [] := by
  have hnone : ∀ select ∈ (none : Option Selector), select.KeepsToDocument := fun _ h => nomatch h
  obtain ⟨f, i', hlookup, hsame, _, hbuilt, hnodes, hothers⟩ :=
    exists_lookup hfree hget hkeys hstore.decodable hhome hnone
  refine ⟨f, i', hlookup, hsame, hbuilt, fun d hd => ?_, hothers⟩
  -- Without a selector every entry is taken.
  rw [hnodes d hd, ← List.filterMap_eq_map]
  rfl

/-- Intact values can be visited by a query. -/
theorem sound_of_intactValues {s : Store} (h : s.IntactValues) : s.Sound := by
  intro key value hv
  obtain ⟨bs, hbs, rfl⟩ := h key value hv
  exact Framing.sound_scan_valueOf fun b hb => ⟨hbs.framed b hb, hbs.sound b hb⟩

/-- The nodes answered for a document, as they are found and sorted, are a part of the map: of
those found with one id the first has its address, and sorted there is one for every id. -/
structure Lists (kind : NameKind) (document : Document) (part : NodeId → Option Address)
    (found sorted : List NodeRef) : Prop where
  first : ∀ n, (found.find? (·.node == n)).map (·.address) = part n
  ascending : sorted.Pairwise fun a b => a.node < b.node
  mem_iff : ∀ r, r ∈ sorted ↔ ∃ address, part r.node = some address ∧
    r = { doc := document.id, node := r.node, address, type? := some kind.nodeType }

/-- References to the entries of a part of the map list that part. -/
theorem lists_of_nodes {s : NodeSet} {kind : NameKind} {document : Document}
    {part : NodeId → Option Address} {entries : List Entry} (hs : s.Built)
    (hnodes : s.nodes document.id = entries.map (Findings.refTo kind document))
    (hpart : ∀ n, (entries.find? (·.node == n)).map (·.address) = part n) :
    Lists kind document part (s.nodes document.id) (s.sortedNodes document.id) where
  first := fun n => by
    rw [hnodes, List.find?_map, Option.map_map, ← hpart]
    rfl
  ascending := NodeSet.ascending_sortedNodes hs document.id
  mem_iff := by
    intro r
    -- A sorted reference is what those to its node fuse to, that is, the first.
    have hrefs : (s.nodes document.id).filter (·.node == r.node) =
        (entries.filter (·.node == r.node)).map (Findings.refTo kind document) := by
      rw [hnodes, List.filter_map]
      rfl
    rw [NodeSet.mem_sortedNodes hs, hrefs, Findings.fuse_map_refTo, List.head?_filter, ← hpart]
    cases hfind : entries.find? (·.node == r.node) with
    | none => simp
    | some e =>
      have hnode : e.node = r.node := by simpa using List.find?_some hfind
      simp only [Option.map_some, Option.some.injEq, exists_eq_left', Findings.refTo, hnode]
      exact eq_comm

/-! ## Runs -/

section Runs

variable {home : DocId → CollectionId} {calls : List (Op × Except Error Unit)} {i : Index}

/-- Every run of the index is a run of the map, with the same outcomes. -/
theorem Run.nodeMap_run (h : Run (Op.AtHome home) calls i) : NodeMap.Run calls i.nodeMap := by
  -- Induction on the run; an empty store stands for the empty map.
  induction h with
  | @start i hempty =>
    have hcontents : i.nodeMap = NodeMap.empty := by
      funext kind collection name doc
      cases hk : Key.lookup? i.symbols kind collection name with
      | none => exact Store.nodeMap_of_lookup?_eq_none hk
      | some k =>
        rw [nodeMap, Store.nodeMap_of_lookup? hk, Store.value?_of_empty hempty]
        rfl
    rw [hcontents]
    exact .start
  | @call calls i op before admitted fits ih =>
    -- What every call needs, an intact store and documents at home, the run so far gives.
    have hs := before.intact
    have hhome := ih.atHome before.admitted
    exact .call ih ((op.does_run i).step_nodeMap hs fits admitted hhome)
  | @others calls i s t before same grown ih =>
    -- What others do changes no value, and new codes no part of the map.
    have hcontents : s.nodeMap t = i.nodeMap := by
      rw [Store.nodeMap_of_extends (before.intact.of_sameContents same (.refl _)) grown,
        Store.nodeMap_congr same.value?, nodeMap]
    show NodeMap.Run calls (s.nodeMap t)
    rw [hcontents]
    exact ih

/-- The index refines a plain map.

In a run whose calls keep every document in one collection, each call does to the contents what
it does to the map; names with one heading share their parts of it.  A first load commits a name
only where the map has no node of the document, and if nothing stands in its way and the key can
be formed, it stops only where there is one; no other call stops for such a reason.  A lookup
answers, for every document asked for, its part of the map. -/
theorem Run.refines_map (h : Run (Op.AtHome home) calls i) :
    NodeMap.Run calls i.nodeMap ∧ i.nodeMap.ByHeading ∧
    (∀ (op : Op) e i', op.Fits i → i.store.Open → op.run i = .error e i' → op.Declined i i' e) ∧
    ∀ kind name ds,
      (∀ d, (DocumentSet.ofList ds).get? d.id = some d → d.collection = home d.id) →
      i.store.isFree .read → i.store.planned .get = 0 →
      (∀ c ∈ (DocumentSet.ofList ds).collections, (i.key? kind c name).isSome) →
      ∃ result i', lookup kind (.ofList ds) name none i = .ok result i' ∧
        i'.store = i.store ∧
        (∀ d, (DocumentSet.ofList ds).get? d.id = some d →
          Lists kind d (i.nodeMap kind d.collection name d.id)
            (result.nodes d.id) (result.sort.nodes d.id)) ∧
        ∀ doc, (DocumentSet.ofList ds).get? doc = none → result.nodes doc = [] := by
  have hs := h.intact
  have hrun := h.nodeMap_run
  have hhome := hrun.atHome h.admitted
  refine ⟨hrun, i.store.byHeading_nodeMap i.symbols, fun op e i' hfits ho hfail =>
    op.declined_of_open hfits ho hs hfail, ?_⟩
  intro kind name ds hds hfree hget hkeys
  have hhomes : ∀ d, (DocumentSet.ofList ds).get? d.id = some d → i.store.Homes d :=
    fun d hd => homes_of_atHome hs hhome (hds d hd)
  obtain ⟨f, i', hlookup, hsame, hbuilt, hnodes, hothers⟩ :=
    lookup_eq_ok hfree hget hkeys (sound_of_intactValues hs.values) hhomes
  -- What is found for a document are its stored entries, and for any other nothing.
  refine ⟨_, i', hlookup, hsame, fun d hd => ?_, fun doc hdoc => ?_⟩
  · rw [Findings.nodes_sort_answer, Findings.nodes_answer]
    exact lists_of_nodes hbuilt (hnodes d hd) (find?_storedEntries hs kind d name)
  · rw [Findings.nodes_answer]
    exact hothers doc hdoc

end Runs

/-! ## Two names come and go -/

/-- The index without the first node, which had the first name. -/
def shortened : Index :=
  Action.stateOf ((Op.removeNodes oneNode.document { localName := "id", kind := .attrId }
    [⟨[1]⟩]).run extended)

/-- The index without the document. -/
def emptied : Index :=
  Action.stateOf ((Op.dropDocument oneNode.document fun _ => false).run shortened)

/-- The removal of the first node goes through. -/
theorem removeNodes_extended :
    removeNodes oneNode.document { localName := "id", kind := .attrId } [⟨[1]⟩] extended =
      .ok () shortened ∧ shortened.store.Open := by
  have hs := (run_extended (fun _ => True) trivial trivial).intact
  obtain ⟨i', hremove, ho⟩ : ∃ i', removeNodes oneNode.document
      { localName := "id", kind := .attrId } [⟨[1]⟩] extended = .ok () i' ∧ i'.store.Open :=
    exists_removeNodes ⟨rfl, rfl, fun _ => rfl⟩ hs.values [⟨[1]⟩] rfl
  rw [shortened, Op.run, hremove]
  exact ⟨rfl, ho⟩

/-- A run leads there. -/
theorem run_shortened : Run (Op.AtHome fun _ => 7)
    [(.flush twoNames, .ok ()), (.flush anotherNode, .ok ()),
      (.removeNodes oneNode.document { localName := "id", kind := .attrId } [⟨[1]⟩], .ok ())]
    shortened :=
  (run_extended (Op.AtHome fun _ => 7) rfl rfl).call_of_outcome rfl removalFits_extended
    (congrArg Action.outcomeOf removeNodes_extended.1)

/-- The second node is what is left under the first name. -/
theorem nodeMap_shortened (n : NodeId) :
    shortened.nodeMap .attrId 7 { localName := "id" } 1 n =
      if n = ⟨[2]⟩ then some .unknown else none := by
  have hpart : shortened.nodeMap .attrId 7 { localName := "id" } 1 =
      Block.addressIn 1 (blocksOf (shortened.store.value? (Key.verbatim 7 "id").toBytes)) :=
    Store.nodeMap_of_lookup? rfl
  have hentries : Block.entriesIn 1 [blockOfNode .ordered 2] =
      (blockOfNode .ordered 2).content ++ [] := rfl
  rw [hpart, blocksOf_extended_of_removeNodes removeNodes_extended.1, Block.addressIn, hentries,
    content_blockOfNode _ (.inr rfl), List.append_nil, List.find?_singleton]
  -- The second block has one node.
  by_cases hn : n = ⟨[2]⟩
  · subst hn
    rfl
  · have hother : ((⟨[2]⟩ : NodeId) == n) = false := beq_eq_false_iff_ne.mpr (Ne.symm hn)
    rw [hother, if_neg hn]
    rfl

/-- The drop of the document goes through. -/
theorem dropDocument_shortened : ∃ count,
    dropDocument oneNode.document (fun _ => false) shortened = .ok count emptied ∧
      emptied.store.Open := by
  have ho := removeNodes_extended.2
  cases hdrop : dropDocument oneNode.document (fun _ => false) shortened with
  | ok count i' =>
    have hemptied : emptied = i' := by rw [emptied, Op.run, hdrop]; rfl
    obtain ⟨_, d, _, hstripped⟩ := dropDocument_strips hdrop
    have hcut := hstripped.cut
    refine ⟨count, by rw [hemptied], ?_⟩
    rw [hemptied]
    exact ⟨(hcut.isFree _).trans ho.free, hcut.readOnly.trans ho.writable, hcut.calm ho.calm⟩
  | error e i' =>
    -- It is not told to stop, and nothing else can keep it from going on.
    obtain ⟨_, _, hstop, _⟩ := declined_of_dropDocument ho run_shortened.intact.values hdrop
    cases hstop

/-- It succeeds. -/
theorem outcomeOf_drop_shortened :
    Action.outcomeOf ((Op.dropDocument oneNode.document fun _ => false).run shortened) =
      .ok () := by
  obtain ⟨_, hdrop, _⟩ := dropDocument_shortened
  rw [Op.run, hdrop]
  rfl

/-- A run leads there. -/
theorem run_emptied : Run (Op.AtHome fun _ => 7)
    [(.flush twoNames, .ok ()), (.flush anotherNode, .ok ()),
      (.removeNodes oneNode.document { localName := "id", kind := .attrId } [⟨[1]⟩], .ok ()),
      (.dropDocument oneNode.document fun _ => false, .ok ())] emptied :=
  run_shortened.call_of_outcome rfl trivial outcomeOf_drop_shortened

/-- Nothing is left of the document. -/
theorem nodeMap_emptied (kind : NameKind) (collection : CollectionId) (name : QName)
    (n : NodeId) : emptied.nodeMap kind collection name 1 n = none := by
  have hdoes := Op.does_run (.dropDocument oneNode.document fun _ => false) shortened
  rw [outcomeOf_drop_shortened] at hdoes
  -- One step of the run: the drop takes the document out of the map.
  have hstep := hdoes.step_nodeMap run_shortened.intact trivial
    (show Op.AtHome (fun _ => 7) _ from rfl)
    (run_shortened.nodeMap_run.atHome run_shortened.admitted)
  have hemptied : emptied.nodeMap = shortened.nodeMap.withoutDocument oneNode.document :=
    hstep.eq_withoutDocument
  rw [hemptied]
  rfl

/-- A first load of two names, an addition, a removal and a drop are such a run of the map.  After
the removal the second node is answered under the first name, and after the drop nothing is. -/
theorem refines_map_emptied :
    NodeMap.Run [(.flush twoNames, .ok ()), (.flush anotherNode, .ok ()),
        (.removeNodes oneNode.document { localName := "id", kind := .attrId } [⟨[1]⟩], .ok ()),
        (.dropDocument oneNode.document fun _ => false, .ok ())] emptied.nodeMap ∧
      (∃ result i', lookup .attrId (.ofList [oneNode.document]) { localName := "id" } none
          shortened = .ok result i' ∧ i'.store = shortened.store ∧
        ∀ r, r ∈ result.sort.nodes 1 ↔
          r = { doc := 1, node := ⟨[2]⟩, address := .unknown, type? := some .attr }) ∧
      ∃ result i', lookup .attrId (.ofList [oneNode.document]) { localName := "no" } none
          emptied = .ok result i' ∧ i'.store = emptied.store ∧ result.sort.nodes 1 = [] := by
  obtain ⟨_, _, _, hshortened⟩ := run_shortened.refines_map
  obtain ⟨hmap, _, _, hemptied⟩ := run_emptied.refines_map
  have hhome : ∀ d, (DocumentSet.ofList [oneNode.document]).get? d.id = some d →
      d.collection = 7 :=
    fun d hd => congrArg Document.collection (DocumentSet.eq_of_get?_singleton hd)
  -- Neither the removal nor the drop has left anything locked or planned.
  have ho := removeNodes_extended.2
  obtain ⟨_, _, ho'⟩ := dropDocument_shortened
  obtain ⟨result, i', hresult, hsame, hlists, _⟩ := hshortened .attrId { localName := "id" }
    [oneNode.document] hhome (Store.isFree_read_of_write ho.free) (ho.calm .get) fun _ _ => rfl
  obtain ⟨result', i'', hresult', hsame', hlists', _⟩ := hemptied .attrId { localName := "no" }
    [oneNode.document] hhome (Store.isFree_read_of_write ho'.free) (ho'.calm .get) fun _ _ => rfl
  refine ⟨hmap, ⟨result, i', hresult, hsame, fun r => ?_⟩, result', i'', hresult', hsame', ?_⟩
  -- What the map has for the first name decides what the lookup answers.
  · have hmem := (hlists oneNode.document rfl).mem_iff r
    rw [show shortened.nodeMap .attrId oneNode.document.collection { localName := "id" }
      oneNode.document.id r.node = _ from nodeMap_shortened r.node] at hmem
    refine hmem.trans ⟨?_, ?_⟩
    · rintro ⟨address, hpart, hr⟩
      split at hpart
      · next hnode =>
        obtain rfl := Option.some.inj hpart
        rw [hr, hnode]
        rfl
      · cases hpart
    · rintro rfl
      exact ⟨.unknown, rfl, rfl⟩
  -- The document was dropped, so its other name has nothing either.
  · refine List.eq_nil_iff_forall_not_mem.mpr fun r hr => ?_
    obtain ⟨address, hpart, _⟩ := ((hlists' oneNode.document rfl).mem_iff r).mp hr
    rw [show emptied.nodeMap .attrId oneNode.document.collection { localName := "no" }
      oneNode.document.id r.node = none from nodeMap_emptied ..] at hpart
    cases hpart

end Index

end XmlIndex
