import XmlIndex.Proofs.QueryAnswers

/-! # What a lookup takes from the stored blocks

A lookup makes of a stored entry the reference that its selector chooses, with the stored address
and the type of the family, or nothing where the selector rejects the node (`Findings.choice`).
From the blocks of a document it takes these references, in stored order (`Index.exists_lookup`),
if the selector keeps to the document it is asked about (`Selector.KeepsToDocument`).  The blocks
need only be such that they can be decoded (`Store.Decodable`); one may be flagged as ordered and
not be. -/

namespace XmlIndex

namespace Store

/-- Values of sound blocks can be decoded. -/
theorem Sound.decodable {s : Store} (h : s.Sound) : s.Decodable where
  framed := by
    intro key
    -- Without a value there are no bytes, which are framed and have no block.
    cases hv : s.value? key with
    | none => exact Block.scanFrom_of_left_eq_zero rfl
    | some value => exact congrArg (Framing.mk _) (h key value hv).no_fault
  decodes := by
    intro key b hb
    cases hv : s.value? key with
    | none =>
      rw [hv] at hb
      cases hb
    | some value =>
      rw [hv] at hb
      exact ((h key value hv).blocks b hb).entries_eq

/-- Values that can be decoded can be visited. -/
theorem Decodable.visitable {i : Index} (h : i.store.Decodable)
    {visit : Findings → Block → Except Error Findings} {go : Findings → Block → Findings}
    (hgo : ∀ b, b.entries = .ok b.content → ∀ f, visit f b = .ok (go f b)) (kind : NameKind)
    (c : CollectionId) (name : QName) :
    ∀ value, i.storedValue? kind c name = some value → Index.Visitable visit go value := by
  intro value hv
  obtain ⟨k, hk⟩ := Index.exists_value?_of_storedValue? hv
  have hscan := h.framed k.toBytes
  have hdecodes := h.decodes k.toBytes
  rw [hk] at hscan hdecodes
  exact ⟨congrArg Framing.fault? hscan, fun b hb => hgo b (hdecodes b hb)⟩

end Store

/-- The selector chooses references to nodes of the document it is asked about. -/
def Selector.KeepsToDocument (select : Selector) : Prop :=
  ∀ document n r, select document n = some r → r.doc = document.id

/-- Takes every node as it is. -/
def Selector.all : Selector := fun document n => some { doc := document.id, node := n }

namespace Findings

variable {kind : NameKind} {select? : Option Selector} {docs : DocumentSet}

/-- The reference that a lookup makes of a stored entry of a document, unless the selector rejects
the node: the selector's, with the stored address and the type of the family. -/
def choice (kind : NameKind) (select? : Option Selector) (document : Document) (e : Entry) :
    Option NodeRef :=
  ((select?.getD .all) document e.node).map fun r =>
    { r with address := e.address, type? := some kind.nodeType }

/-- What is chosen is of the document. -/
theorem doc_of_choice (h : ∀ select ∈ select?, select.KeepsToDocument) {document : Document}
    {e : Entry} {r : NodeRef} (hr : choice kind select? document e = some r) :
    r.doc = document.id := by
  obtain ⟨r₀, hr₀, rfl⟩ := Option.map_eq_some_iff.mp hr
  cases select? with
  | none => exact (Option.some.inj hr₀) ▸ rfl
  | some select => exact h select rfl document e.node r₀ hr₀

/-- An entry is added as chosen, or the findings are incomplete. -/
theorem addEntry_eq (f : Findings) (document : Document) (e : Entry) :
    addEntry kind select? document f e =
      match choice kind select? document e with
      | none => { f with complete := false }
      | some r => { f with nodes := f.nodes.add r } := by
  cases select? with
  | none => rfl
  | some select =>
    simp only [addEntry, choice, Option.getD_some]
    cases select document e.node <;> rfl

/-- Entries leave their references, and completeness if none of them is rejected. -/
theorem foldl_addEntry_eq (f : Findings) (document : Document) (es : List Entry) :
    es.foldl (addEntry kind select? document) f =
      { f with
        nodes := (es.filterMap (choice kind select? document)).foldl .add f.nodes
        complete := f.complete && es.all fun e => (choice kind select? document e).isSome } := by
  induction es generalizing f with
  | nil => simp
  | cons e es ih =>
    rw [List.foldl_cons, ih, addEntry_eq]
    cases he : choice kind select? document e <;> simp [he]

/-- The references that a lookup takes from a block, if it is of a document asked for. -/
def chosen (kind : NameKind) (select? : Option Selector) (docs : DocumentSet) :
    Block → List NodeRef :=
  taken docs fun d b => b.content.filterMap (choice kind select? d)

/-- What is taken from a block is of its document. -/
theorem doc_of_mem_filterMap_choice (h : ∀ select ∈ select?, select.KeepsToDocument)
    (document : Document) (b : Block) :
    ∀ r ∈ b.content.filterMap (choice kind select? document), r.doc = document.id := by
  intro r hr
  obtain ⟨e, _, he⟩ := List.mem_filterMap.mp hr
  exact doc_of_choice h he

/-- What a lookup makes of a block that can be decoded. -/
def added (kind : NameKind) (select? : Option Selector) (docs : DocumentSet) (b : Block)
    (f : Findings) : Findings :=
  match docs.get? b.doc with
  | none => f
  | some document =>
    let f := b.content.foldl (addEntry kind select? document) f
    { f with nodes := f.nodes.noteSorted document.id b.order.isOrdered }

/-- A block that can be decoded is added. -/
theorem addBlock_eq_added {b : Block} (hb : b.entries = .ok b.content) (f : Findings) :
    addBlock kind select? docs f b = .ok (added kind select? docs b f) := by
  unfold addBlock added
  cases docs.get? b.doc with
  | none => rfl
  | some document =>
    rw [hb]
    rfl

/-- A block adds what is chosen of it. -/
theorem nodes_added (f : Findings) (b : Block) (doc : DocId) :
    (added kind select? docs b f).nodes.nodes doc =
      f.nodes.nodes doc ++ (chosen kind select? docs b).filter (·.doc == doc) := by
  unfold added chosen taken
  cases docs.get? b.doc with
  | none => simp
  | some d => simp only [foldl_addEntry_eq, NodeSet.nodes_noteSorted, NodeSet.nodes_foldl_add]

/-- A block adds to findings that are built. -/
theorem built_added {f : Findings} (h : f.nodes.Built) (b : Block) :
    (added kind select? docs b f).nodes.Built := by
  unfold added
  cases docs.get? b.doc with
  | none => exact h
  | some d =>
    simp only [foldl_addEntry_eq]
    exact .noteSorted _ _ (NodeSet.built_foldl_add h _)

end Findings

namespace Index

/-- A lookup finds for every document asked for what its selector takes from the stored entries,
and nothing for other documents. -/
theorem exists_lookup {i : Index} {kind : NameKind} {name : QName} {ds : List Document}
    {select? : Option Selector} (hfree : i.store.isFree .read) (hget : i.store.planned .get = 0)
    (hkeys : ∀ c ∈ (DocumentSet.ofList ds).collections, (i.key? kind c name).isSome)
    (hstore : i.store.Decodable)
    (hhome : ∀ d, (DocumentSet.ofList ds).get? d.id = some d → i.store.Homes d)
    (hselect : ∀ select ∈ select?, select.KeepsToDocument) :
    ∃ (f : Findings) (i' : Index),
      lookup kind (.ofList ds) name select? i = .ok (f.answer (.ofList ds)) i' ∧
      i'.store = i.store ∧
      f = visited (fun f b => Findings.added kind select? (.ofList ds) b f)
        ((DocumentSet.ofList ds).collections.map (i.storedValue? kind · name)) {} ∧
      f.nodes.Built ∧
      (∀ d, (DocumentSet.ofList ds).get? d.id = some d → f.nodes.nodes d.id =
        (i.storedEntries kind d name).filterMap (Findings.choice kind select? d)) ∧
      ∀ doc, (DocumentSet.ofList ds).get? doc = none → f.nodes.nodes doc = [] := by
  -- The stored blocks can be decoded, so the visit goes through all of them.
  obtain ⟨i', hvisit, hsame⟩ := visitValues_eq_ok hfree hget hkeys
    (fun c _ => hstore.visitable (fun b hb => Findings.addBlock_eq_added hb) kind c name) {}
  have htaken : ∀ (d : Document) (b : Block),
      ∀ r ∈ b.content.filterMap (Findings.choice kind select? d), r.doc = d.id :=
    Findings.doc_of_mem_filterMap_choice hselect
  refine ⟨_, i', Action.bind_eq_ok_iff.mpr ⟨_, i', hvisit, rfl⟩, hsame, rfl,
    built_visited (fun f b hf => Findings.built_added hf b) _ .empty, fun d hd => ?_,
    fun doc hdoc => ?_⟩
  · rw [storedEntries, List.filterMap_flatMap]
    exact nodes_visited_of_get? Findings.nodes_added htaken hd (hhome d hd)
  · exact nodes_visited_of_get?_eq_none Findings.nodes_added htaken hdoc

end Index

end XmlIndex
