import XmlIndex.Proofs.QueryAnswers
import XmlIndex.Proofs.SweepNestedLoop

/-! # A join answers what brute force would

`BruteForce` says what the answer of a join for one document has to be, in terms of the
entries stored for the document and the nodes of the context, each as a plain list: which
nodes there are, in which order, with which address, and from which nodes they were reached.

`Index.join_isBruteForce` says that a join answers that, for every store whose values are
sequences of sound blocks: however many blocks a document has, ordered or not, and whatever
is repeated in the store or in the context. -/

namespace XmlIndex

/-- The node stands on the axis of `a`. -/
def NodeId.OnAxis (n : NodeId) (axis : Axis) (a : NodeId) : Prop :=
  ∃ relation, n.relationTo? a = some relation ∧ axis.accepts relation = true

/-- What is accepted stands on the axis. -/
theorem JoinStep.accepts_iff {j : JoinStep} {a : NodeRef} {n : NodeId} :
    j.accepts a n = true ↔ n.OnAxis j.axis a.node := by
  rw [JoinStep.accepts, Option.any_eq_true]
  rfl

/-- The references `found` are the nodes among `entries` that stand on the axis of a node of
the context: ascending, each with its first address, and with the origins of just the context
nodes it was reached from. -/
structure BruteForce (j : JoinStep) (entries : List Entry) (context found : List NodeRef) :
    Prop where
  ascending : found.Pairwise fun a b => a.node < b.node
  nodes : ∀ n, (∃ r ∈ found, r.node = n) ↔
    (∃ e ∈ entries, e.node = n) ∧ ∃ a ∈ context, n.OnAxis j.axis a.node
  doc_type : ∀ r ∈ found, r.doc = j.doc ∧ r.type? = some j.type
  address : ∀ r ∈ found,
    (entries.find? (·.node == r.node)).map (·.address) = some r.address
  nodup_origins : ∀ r ∈ found, r.origins.Nodup
  mem_origins : ∀ r ∈ found, ∀ o, o ∈ r.origins ↔
    ∃ a ∈ context, r.node.OnAxis j.axis a.node ∧
      (o ∈ a.origins ∨ ∃ id, j.contextId? = some id ∧ o = ⟨id, a.node⟩)

/-! ## The references from the blocks of a document -/

namespace JoinStep

variable {j : JoinStep} {ancestors : List NodeRef} {blocks : List Block}

/-- The results from some blocks, one block after the other. -/
def matchingBlocks (j : JoinStep) (ancestors : List NodeRef) (blocks : List Block) :
    List NodeRef :=
  blocks.flatMap fun b => j.matching ancestors (b.arranged b.content)

/-- Arranging keeps which ids there are. -/
theorem exists_mem_arranged (b : Block) (es : List Entry) (n : NodeId) :
    (∃ e ∈ b.arranged es, e.node = n) ↔ ∃ e ∈ es, e.node = n := by
  have hfind := Block.find?_arranged b es n
  have hsome : ∀ l : List Entry, (l.find? (·.node == n)).isSome ↔ ∃ e ∈ l, e.node = n := by
    intro l
    rw [List.find?_isSome]
    simp only [beq_iff_eq]
  rw [← hsome, ← hsome, hfind]

/-- Which results there are for a node. -/
theorem mem_matchingBlocks {r : NodeRef} :
    r ∈ j.matchingBlocks ancestors blocks ↔
      ∃ b ∈ blocks, ∃ a ∈ ancestors, ∃ e ∈ b.arranged b.content,
        j.accepts a e.node = true ∧ r = j.result e a := by
  simp only [matchingBlocks, List.mem_flatMap, mem_matching]

/-- Some result for a node has a property if the node is stored and an ancestor gives it that. -/
theorem exists_mem_matchingBlocks {p : NodeRef → Prop} {n : NodeId}
    (hp : ∀ e e' a, e.node = e'.node → (p (j.result e a) ↔ p (j.result e' a))) :
    (∃ r ∈ j.matchingBlocks ancestors blocks, r.node = n ∧ p r) ↔
      ∃ e ∈ blocks.flatMap (·.content), e.node = n ∧
        ∃ a ∈ ancestors, j.accepts a n = true ∧ p (j.result e a) := by
  have hnode : ∀ e a, (j.result e a).node = e.node := fun e a => by rw [result_eq]
  constructor
  · rintro ⟨r, hr, rfl, hpr⟩
    obtain ⟨b, hb, a, ha, e, he, hacc, rfl⟩ := mem_matchingBlocks.mp hr
    -- The entry in the arranged block need not be the stored one, but has its id.
    obtain ⟨e', he', hn⟩ := (exists_mem_arranged b b.content e.node).mp ⟨e, he, rfl⟩
    rw [hnode]
    exact ⟨e', List.mem_flatMap.mpr ⟨b, hb, he'⟩, hn, a, ha, hacc, (hp e e' a hn.symm).mp hpr⟩
  · rintro ⟨e, he, rfl, a, ha, hacc, hpr⟩
    obtain ⟨b, hb, he⟩ := List.mem_flatMap.mp he
    obtain ⟨e', he', hn⟩ := (exists_mem_arranged b b.content e.node).mpr ⟨e, he, rfl⟩
    refine ⟨j.result e' a, ?_, (hnode e' a).trans hn, (hp e' e a hn).mpr hpr⟩
    exact mem_matchingBlocks.mpr ⟨b, hb, a, ha, e', he', hn ▸ hacc, rfl⟩

/-- The first result for a node comes from the first entry with its id, block by block. -/
theorem address_find?_matchingBlocks {n : NodeId} (hacc : ancestors.any (j.accepts · n)) :
    ((j.matchingBlocks ancestors blocks).find? (·.node == n)).map (·.address) =
      ((blocks.flatMap (·.content)).find? (·.node == n)).map (·.address) := by
  -- Block by block: arranging a block keeps the first entry for every id.
  induction blocks with
  | nil => rfl
  | cons b blocks ih =>
    have hfirst := address_find?_matching (j := j) ancestors (b.arranged b.content) n
    rw [if_pos hacc, Block.find?_arranged] at hfirst
    rw [matchingBlocks, List.flatMap_cons, List.find?_append, ← matchingBlocks, Option.map_or,
      hfirst, ih, List.flatMap_cons, List.find?_append, Option.map_or]

end JoinStep

/-! ## Sorting them -/

section Sorted

variable {j : JoinStep} {s context : NodeSet} {blocks : List Block} {doc : DocId}

/-- A node stands on the axis of a sorted ancestor just if it stands on that of a node of the
context. -/
theorem exists_accepts_iff (hcontext : context.Built) {n : NodeId} :
    (∃ a ∈ context.sortedNodes doc, j.accepts a n = true) ↔
      ∃ a ∈ context.nodes doc, n.OnAxis j.axis a.node := by
  simp only [JoinStep.accepts_iff]
  constructor
  · rintro ⟨a, ha, hon⟩
    obtain ⟨a', ha', hn⟩ := (NodeSet.exists_mem_sortedNodes hcontext).mp ⟨a, ha, rfl⟩
    exact ⟨a', ha', hn ▸ hon⟩
  · rintro ⟨a, ha, hon⟩
    obtain ⟨a', ha', hn⟩ := (NodeSet.exists_mem_sortedNodes hcontext).mpr ⟨a, ha, rfl⟩
    exact ⟨a', ha', hn ▸ hon⟩

/-- The same for the origins that come with the ancestors. -/
theorem exists_origin_iff (hcontext : context.Built) {n : NodeId} {o : Origin} :
    (∃ a ∈ context.sortedNodes doc, j.accepts a n = true ∧
        (o ∈ a.origins ∨ ∃ id, j.contextId? = some id ∧ o = ⟨id, a.node⟩)) ↔
      ∃ a ∈ context.nodes doc, n.OnAxis j.axis a.node ∧
        (o ∈ a.origins ∨ ∃ id, j.contextId? = some id ∧ o = ⟨id, a.node⟩) := by
  simp only [JoinStep.accepts_iff]
  constructor
  -- An origin of a sorted reference was one of a reference in the set, with the same id.
  · rintro ⟨a, ha, hon, ho | ⟨id, hid, rfl⟩⟩
    · obtain ⟨a', ha', hn, ho'⟩ := (NodeSet.mem_origins_sortedNodes hcontext ha).mp ho
      exact ⟨a', ha', hn ▸ hon, .inl ho'⟩
    · obtain ⟨a', ha', hn⟩ := (NodeSet.exists_mem_sortedNodes hcontext).mp ⟨a, ha, rfl⟩
      exact ⟨a', ha', hn ▸ hon, .inr ⟨id, hid, by rw [hn]⟩⟩
  · rintro ⟨a, ha, hon, ho⟩
    obtain ⟨a', ha', hn⟩ := (NodeSet.exists_mem_sortedNodes hcontext).mpr ⟨a, ha, rfl⟩
    refine ⟨a', ha', hn ▸ hon, ?_⟩
    rcases ho with ho | ⟨id, hid, rfl⟩
    · exact .inl ((NodeSet.mem_origins_sortedNodes hcontext ha').mpr ⟨a, ha, hn.symm, ho⟩)
    · exact .inr ⟨id, hid, by rw [hn]⟩

variable (hs : s.Built) (hcontext : context.Built)
  (h : s.nodes doc = j.matchingBlocks (context.sortedNodes doc) blocks)

include hs h

/-- A sorted result is what the results for its node fuse to. -/
theorem fuse_matchingBlocks {r : NodeRef} (hr : r ∈ s.sortedNodes doc) :
    NodeRef.fuse ((j.matchingBlocks (context.sortedNodes doc) blocks).filter
      (·.node == r.node)) = some r :=
  h ▸ (NodeSet.mem_sortedNodes hs).mp hr

/-- A sorted result is the first one for its node, but for the origins. -/
theorem find?_matchingBlocks {r : NodeRef} (hr : r ∈ s.sortedNodes doc) :
    ∃ e a, (j.matchingBlocks (context.sortedNodes doc) blocks).find? (·.node == r.node) =
        some (j.result e a) ∧ r = { j.result e a with origins := r.origins } := by
  obtain ⟨r', hhead, heq⟩ := NodeRef.fuse_eq_some (fuse_matchingBlocks hs h hr)
  rw [List.head?_filter] at hhead
  obtain ⟨b, _, a, _, e, _, _, rfl⟩ :=
    JoinStep.mem_matchingBlocks.mp (List.mem_of_find?_eq_some hhead)
  exact ⟨e, a, hhead, heq⟩

include hcontext

/-- The nodes found are the stored ones on the axis of a node of the context. -/
theorem exists_mem_sorted_iff {n : NodeId} :
    (∃ r ∈ s.sortedNodes doc, r.node = n) ↔
      (∃ e ∈ blocks.flatMap (·.content), e.node = n) ∧
        ∃ a ∈ context.nodes doc, n.OnAxis j.axis a.node := by
  -- Which node of the context a pair was found by does not matter here.
  have hexists : (∃ r ∈ j.matchingBlocks (context.sortedNodes doc) blocks, r.node = n ∧ True) ↔ _ :=
    JoinStep.exists_mem_matchingBlocks (p := fun _ => True) fun _ _ _ _ => Iff.rfl
  simp only [and_true] at hexists
  rw [NodeSet.exists_mem_sortedNodes hs, h, ← exists_accepts_iff hcontext, hexists]
  constructor
  · rintro ⟨e, he, hn, a, ha, hacc⟩
    exact ⟨⟨e, he, hn⟩, a, ha, hacc⟩
  · rintro ⟨⟨e, he, hn⟩, a, ha, hacc⟩
    exact ⟨e, he, hn, a, ha, hacc⟩

/-- The results from the blocks of a document, sorted, are what brute force finds. -/
theorem bruteForce_of_nodes :
    BruteForce j (blocks.flatMap (·.content)) (context.nodes doc) (s.sortedNodes doc) where
  ascending := NodeSet.ascending_sortedNodes hs doc
  nodes := fun n => exists_mem_sorted_iff hs hcontext h
  doc_type := by
    intro r hr
    obtain ⟨e, a, _, heq⟩ := find?_matchingBlocks hs h hr
    rw [heq, JoinStep.result_eq]
    exact ⟨rfl, rfl⟩
  address := by
    intro r hr
    obtain ⟨e, a, hfind, heq⟩ := find?_matchingBlocks hs h hr
    have hon := ((exists_mem_sorted_iff hs hcontext h).mp ⟨r, hr, rfl⟩).2
    obtain ⟨a', ha', hacc⟩ := (exists_accepts_iff hcontext).mpr hon
    -- The node was reached from some ancestor, so its first result is that of an entry.
    have hany : (context.sortedNodes doc).any (j.accepts · r.node) = true :=
      List.any_eq_true.mpr ⟨a', ha', hacc⟩
    rw [← JoinStep.address_find?_matchingBlocks hany, hfind, Option.map_some, heq]
  nodup_origins := by
    intro r hr
    -- Fusing keeps origins distinct, as those of each result are.
    refine NodeRef.nodup_origins_of_fuse (fuse_matchingBlocks hs h hr) fun r' hr' => ?_
    obtain ⟨_, _, a, _, e, _, _, rfl⟩ :=
      JoinStep.mem_matchingBlocks.mp (List.mem_filter.mp hr').1
    exact JoinStep.nodup_origins_result e a
  mem_origins := by
    intro r hr o
    obtain ⟨e, he, hn⟩ := ((exists_mem_sorted_iff hs hcontext h).mp ⟨r, hr, rfl⟩).1
    rw [NodeRef.mem_origins_of_fuse (fuse_matchingBlocks hs h hr)]
    simp only [List.mem_filter, beq_iff_eq, and_assoc]
    -- An origin of the fused result is one of some result for the node.
    rw [JoinStep.exists_mem_matchingBlocks (p := fun r => o ∈ r.origins) fun e e' a _ => by
      rw [JoinStep.mem_origins_result, JoinStep.mem_origins_result]]
    simp only [JoinStep.mem_origins_result]
    rw [← exists_origin_iff hcontext]
    constructor
    · rintro ⟨_, _, _, ha⟩
      exact ha
    · exact fun ha => ⟨e, he, hn, ha⟩

end Sorted

/-! ## The whole join -/

namespace Findings

variable {kind : NameKind} {axis : Axis} {docs : DocumentSet} {context : NodeSet}
  {contextId? : Option UInt32}

/-- The results from a block, if it is of a document asked for. -/
def joined (kind : NameKind) (axis : Axis) (docs : DocumentSet) (context : NodeSet)
    (contextId? : Option UInt32) : Block → List NodeRef :=
  taken docs fun d b =>
    JoinStep.matching { doc := d.id, type := kind.nodeType, axis, contextId? }
      (context.sortedNodes d.id) (b.arranged b.content)

/-- A sound block adds its results. -/
theorem joinBlock_of_sound (hcontext : context.Built) {b : Block} (hb : b.Sound)
    (f : Findings) :
    joinBlock kind axis docs context contextId? f b =
      .ok { f with nodes := (joined kind axis docs context contextId? b).foldl .add f.nodes } := by
  rw [joinBlock, joined, taken]
  -- A block of another document is passed over.
  cases docs.get? b.doc with
  | none => rfl
  | some d =>
    have hasc := NodeSet.ascending_sortedNodes hcontext d.id
    simp only [JoinStep.joinBlock_eq_nestedLoop hb.entries_eq hb.sorted hasc,
      JoinStep.nestedLoop_eq_foldl_add]
    rfl

/-- The results are of the document. -/
theorem doc_of_mem_matching {j : JoinStep} {ancestors : List NodeRef} {entries : List Entry}
    {r : NodeRef} (hr : r ∈ j.matching ancestors entries) : r.doc = j.doc := by
  obtain ⟨a, _, e, _, _, rfl⟩ := JoinStep.mem_matching.mp hr
  rw [JoinStep.result_eq]

end Findings

namespace Index

/-- A join on a store of sound values succeeds without a change of the store.  For every
document asked for it answers what brute force finds among the stored entries, and no node of
any other document. -/
theorem join_isBruteForce (i : Index) (kind : NameKind) (axis : Axis) (ds : List Document)
    (name : QName) (context : NodeSet) (contextId? : Option UInt32)
    (hfree : i.store.isFree .read) (hget : i.store.planned .get = 0)
    (hkeys : ∀ c ∈ (DocumentSet.ofList ds).collections, (i.key? kind c name).isSome)
    (hstore : i.store.Sound)
    (hhome : ∀ d, (DocumentSet.ofList ds).get? d.id = some d → i.store.Homes d)
    (hcontext : context.Built) :
    ∃ result i', join kind axis (.ofList ds) name context contextId? i = .ok result i' ∧
      i'.store = i.store ∧
      (∀ d, (DocumentSet.ofList ds).get? d.id = some d →
        BruteForce { doc := d.id, type := kind.nodeType, axis, contextId? }
          (i.storedEntries kind d name) (context.nodes d.id) (result.nodes d.id)) ∧
      ∀ doc, (DocumentSet.ofList ds).get? doc = none → result.nodes doc = [] := by
  -- The visit of a block adds what it joins to, since the stored blocks are sound.
  let docs := DocumentSet.ofList ds
  let joined := Findings.joined kind axis docs context contextId?
  let go : Findings → Block → Findings := fun f b =>
    { f with nodes := (joined b).foldl .add f.nodes }
  have hvalues : ∀ c ∈ docs.collections, ∀ value, i.storedValue? kind c name = some value →
      Visitable (Findings.joinBlock kind axis docs context contextId?) go value := by
    intro c _ value hv
    obtain ⟨k, _, hv⟩ := Option.bind_eq_some_iff.mp hv
    have hsound := hstore k.toBytes value hv
    exact ⟨hsound.no_fault, fun b hb f =>
      Findings.joinBlock_of_sound hcontext (hsound.blocks b hb) f⟩
  obtain ⟨i', hvisit, hsame⟩ := visitValues_eq_ok hfree hget hkeys hvalues {}
  let f := visited go (docs.collections.map (i.storedValue? kind · name)) {}
  -- Before sorting, a document has the references of its own blocks, in stored order.
  have hbuilt : f.nodes.Built :=
    built_visited (fun f b hf => NodeSet.built_foldl_add hf (joined b)) _ .empty
  have hgo : ∀ f b doc, (go f b).nodes.nodes doc =
      f.nodes.nodes doc ++ (joined b).filter (·.doc == doc) :=
    fun f b doc => NodeSet.nodes_foldl_add f.nodes (joined b) doc
  have hresult : ∀ doc, (({ f with nodes := f.nodes.sort } : Findings).answer docs).nodes doc =
      f.nodes.sortedNodes doc := fun doc => by
    rw [Findings.nodes_answer, NodeSet.nodes_sort]
  refine ⟨({ f with nodes := f.nodes.sort } : Findings).answer docs, i', ?_, hsame, ?_, ?_⟩
  · exact Action.bind_eq_ok_iff.mpr ⟨f, i', hvisit, rfl⟩
  · intro d hd
    rw [hresult]
    -- The nodes of a document are those of its blocks, so the reference join is over its entries.
    refine bruteForce_of_nodes hbuilt hcontext ?_
    rw [nodes_visited_of_get? hgo (fun d b r hr => Findings.doc_of_mem_matching hr) hd
      (hhome d hd), JoinStep.matchingBlocks]
  · intro doc hdoc
    -- Nothing was taken for a document that was not asked for.
    have hnil : f.nodes.nodes doc = [] :=
      nodes_visited_of_get?_eq_none hgo (fun d b r hr => Findings.doc_of_mem_matching hr) hdoc
    rw [hresult]
    refine List.eq_nil_iff_forall_not_mem.mpr fun r hr => ?_
    obtain ⟨r', hr', _⟩ := (NodeSet.exists_mem_sortedNodes hbuilt).mp ⟨r, hr, rfl⟩
    rw [hnil] at hr'
    cases hr'

/-- An index with an ordered and an unordered block of one document under one name. -/
def twoBlocks : Index where
  store := ({ name := "nodes", timeout := ⟨100⟩ } : Store).place (Key.verbatim 7 "id").toBytes
    (Block.valueOf
      [Block.ofEntries 1 .ordered [⟨⟨[1]⟩, ⟨10⟩⟩, ⟨⟨[1, 2]⟩, ⟨11⟩⟩],
       Block.ofEntries 1 .unordered [⟨⟨[1, 2]⟩, ⟨12⟩⟩, ⟨⟨[1, 1]⟩, ⟨13⟩⟩]])
  symbols := .empty
  progressStep := 10

/-- The index has one value. -/
theorem value?_twoBlocks {key value : Bytes} (h : twoBlocks.store.value? key = some value) :
    key = (Key.verbatim 7 "id").toBytes ∧ value = Block.valueOf
      [Block.ofEntries 1 .ordered [⟨⟨[1]⟩, ⟨10⟩⟩, ⟨⟨[1, 2]⟩, ⟨11⟩⟩],
       Block.ofEntries 1 .unordered [⟨⟨[1, 2]⟩, ⟨12⟩⟩, ⟨⟨[1, 1]⟩, ⟨13⟩⟩]] := by
  rw [twoBlocks, Store.value?_place] at h
  split at h
  · next hkey => exact ⟨hkey, (Option.some.inj h).symm⟩
  · cases h

/-- It is made of two sound blocks. -/
theorem sound_twoBlocks : twoBlocks.store.Sound := by
  intro key value h
  rw [(value?_twoBlocks h).2]
  have hfirst : Entry.FitBlock [⟨⟨[1]⟩, ⟨10⟩⟩, ⟨⟨[1, 2]⟩, ⟨11⟩⟩] :=
    ⟨by simp [Entry.Storable, NodeId.Valid, UInt32.size], by
      simp [Entry.encodeBody, Entry.encode, NodeId.encode, NodeId.encodeEnd, Varint.encode,
        Varint.encodeNat, UInt32.size]⟩
  have hsecond : Entry.FitBlock [⟨⟨[1, 2]⟩, ⟨12⟩⟩, ⟨⟨[1, 1]⟩, ⟨13⟩⟩] :=
    ⟨by simp [Entry.Storable, NodeId.Valid, UInt32.size], by
      simp [Entry.encodeBody, Entry.encode, NodeId.encode, NodeId.encodeEnd, Varint.encode,
        Varint.encodeNat, UInt32.size]⟩
  refine Framing.sound_scan_valueOf fun b hb => ?_
  simp only [List.mem_cons, List.not_mem_nil, or_false] at hb
  rcases hb with rfl | rfl
  · refine ⟨Block.wellFramed_ofEntries _ _ hfirst, Block.sound_ofEntries _ hfirst fun _ => ?_⟩
    exact List.pairwise_pair.mpr (by decide)
  · refine ⟨Block.wellFramed_ofEntries _ _ hsecond, Block.sound_ofEntries _ hsecond fun h => ?_⟩
    cases h

/-- A join over an ordered and an unordered block, with an address that is stored twice. -/
theorem join_twoBlocks_isBruteForce :
    ∃ result i', join .attrId .child (.ofList [⟨1, 7, "/db/a.xml"⟩]) { localName := "id" }
        (NodeSet.empty.add { doc := 1, node := ⟨[1]⟩ }) (some 3) twoBlocks = .ok result i' ∧
      i'.store = twoBlocks.store ∧
      (∀ d, (DocumentSet.ofList [⟨1, 7, "/db/a.xml"⟩]).get? d.id = some d →
        BruteForce { doc := d.id, type := .attr, axis := .child, contextId? := some 3 }
          (twoBlocks.storedEntries .attrId d { localName := "id" })
          ((NodeSet.empty.add { doc := 1, node := ⟨[1]⟩ }).nodes d.id) (result.nodes d.id)) ∧
      ∀ doc, (DocumentSet.ofList [⟨1, 7, "/db/a.xml"⟩]).get? doc = none →
        result.nodes doc = [] := by
  refine join_isBruteForce twoBlocks .attrId .child [⟨1, 7, "/db/a.xml"⟩] { localName := "id" }
    _ (some 3) rfl rfl (fun _ _ => rfl) sound_twoBlocks ?_ (.add _ .empty)
  intro d hd k value hv b _ _
  rw [Key.toBytes_inj (value?_twoBlocks hv).1, DocumentSet.eq_of_get?_singleton hd]
  rfl

end Index

end XmlIndex
