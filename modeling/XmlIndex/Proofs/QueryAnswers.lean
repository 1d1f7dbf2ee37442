import XmlIndex.Proofs.QueryVisits

/-! # What a query answers for a document

A query takes references from the blocks it visits, as long as they are of a document it was
asked for (`Findings.taken`).  If that document has blocks only under keys of its own collection
(`Store.Homes`), the query finds for it what it takes from the blocks stored for it there, in
stored order (`Index.nodes_visited_of_get?`).  For any other document it finds nothing. -/

namespace XmlIndex

namespace Store

/-- The document has blocks only under keys of its collection. -/
def Homes (s : Store) (document : Document) : Prop :=
  ∀ (k : Key) (value : Bytes), s.value? k.toBytes = some value →
    ∀ b ∈ (Block.scan value).blocks, b.doc = document.id → k.collection = document.collection

end Store

section Lists

variable {α β : Type}

/-- Taking from those with a property is taking from their part of the list. -/
theorem flatMap_ite (p : α → Bool) (f : α → List β) (l : List α) :
    (l.flatMap fun a => if p a then f a else []) = (l.filter p).flatMap f := by
  induction l with
  | nil => rfl
  | cons a l ih =>
    rw [List.flatMap_cons, ih, List.filter_cons]
    split
    · rw [List.flatMap_cons]
    · rfl

/-- If only one element contributes, it contributes all. -/
theorem flatMap_eq_of_forall_ne {f : α → List β} {l : List α} {a : α} (hl : l.Nodup)
    (ha : a ∈ l) (h : ∀ b ∈ l, b ≠ a → f b = []) : l.flatMap f = f a := by
  induction l with
  | nil => cases ha
  | cons b l ih =>
    obtain ⟨hb, hl⟩ := List.nodup_cons.mp hl
    rw [List.flatMap_cons]
    rcases List.mem_cons.mp ha with rfl | ha
    -- The element is in front, and all others contribute nothing.
    · have hnil : l.flatMap f = [] := List.flatMap_eq_nil_iff.mpr fun c hc =>
        h c (List.mem_cons_of_mem a hc) fun he => hb (he ▸ hc)
      rw [hnil, List.append_nil]
    · have hne : b ≠ a := fun he => hb (he ▸ ha)
      rw [h b List.mem_cons_self hne, List.nil_append,
        ih hl ha fun c hc => h c (List.mem_cons_of_mem b hc)]

end Lists

namespace Findings

/-- What is taken from a block, if it is of a document asked for. -/
def taken (docs : DocumentSet) (refs : Document → Block → List NodeRef) (b : Block) :
    List NodeRef :=
  match docs.get? b.doc with
  | none => []
  | some d => refs d b

variable {ds : List Document} {refs : Document → Block → List NodeRef}

/-- What is taken for a document comes from its own blocks. -/
theorem filter_taken (hrefs : ∀ d b, ∀ r ∈ refs d b, r.doc = d.id) {d : Document}
    (hd : (DocumentSet.ofList ds).get? d.id = some d) (b : Block) :
    (taken (.ofList ds) refs b).filter (·.doc == d.id) =
      if b.doc == d.id then refs d b else [] := by
  unfold taken
  by_cases hb : b.doc = d.id
  · rw [hb, hd, if_pos (beq_self_eq_true d.id)]
    apply List.filter_eq_self.mpr
    intro r hr
    simpa using hrefs d b r hr
  · rw [if_neg (by simp [hb])]
    apply List.filter_eq_nil_iff.mpr
    intro r hr
    split at hr
    · cases hr
    · next d' hd' =>
      -- The block was found under its own number, and that is not the one of `d`.
      have hid : d'.id = b.doc := DocumentSet.id_of_get?_ofList hd'
      simpa [hrefs d' b r hr, hid] using hb

/-- Nothing is taken for a document that was not asked for. -/
theorem filter_taken_of_get?_eq_none (hrefs : ∀ d b, ∀ r ∈ refs d b, r.doc = d.id)
    {doc : DocId} (hdoc : (DocumentSet.ofList ds).get? doc = none) (b : Block) :
    (taken (.ofList ds) refs b).filter (·.doc == doc) = [] := by
  unfold taken
  split
  · rfl
  -- The references of a block are to the document of the block.
  · next d hd =>
    apply List.filter_eq_nil_iff.mpr
    intro r hr he
    have hid : d.id = b.doc := DocumentSet.id_of_get?_ofList hd
    have hsame : b.doc = doc := by
      rw [← hid, ← hrefs d b r hr]
      exact beq_iff_eq.mp he
    rw [hsame, hdoc] at hd
    cases hd

/-- An answer has the nodes that were found. -/
theorem nodes_answer (f : Findings) (docs : DocumentSet) (doc : DocId) :
    (f.answer docs).nodes doc = f.nodes.nodes doc := by
  rw [answer]
  split <;> rfl

end Findings

namespace Index

/-- A block of a document is stored under a name in the collection of the document. -/
theorem collection_of_mem_storedBlocks {i : Index} {kind : NameKind} {name : QName} {d : Document}
    {c : CollectionId} {b : Block} (hhome : i.store.Homes d)
    (hb : b ∈ i.storedBlocks kind c name) (hdoc : b.doc = d.id) : c = d.collection := by
  obtain ⟨value, hv, hb⟩ := mem_storedBlocks.mp hb
  obtain ⟨k, hk, hv⟩ := Option.bind_eq_some_iff.mp hv
  obtain ⟨t, hof⟩ := ofName_of_key? hk
  rw [← hhome k value hv b hb hdoc]
  exact (Key.kind_of_lookup? (Key.ofName_eq_ok hof).1).2.symm

/-- What is stored for a document under a name is stored in its collection. -/
theorem flatMap_storedBlocks {i : Index} {kind : NameKind} {name : QName} {d : Document}
    {collections : List CollectionId} (hnodup : collections.Nodup)
    (hmem : d.collection ∈ collections) (hhome : i.store.Homes d) :
    (collections.flatMap (i.storedBlocks kind · name)).filter (·.doc == d.id) =
      (i.storedBlocks kind d.collection name).filter (·.doc == d.id) := by
  -- Under the keys of other collections the document has no blocks.
  have hother : ∀ c ∈ collections, c ≠ d.collection →
      (i.storedBlocks kind c name).filter (·.doc == d.id) = [] := fun c _ hc =>
    List.filter_eq_nil_iff.mpr fun b hb hdoc =>
      hc (collection_of_mem_storedBlocks hhome hb (beq_iff_eq.mp hdoc))
  rw [List.filter_flatMap]
  exact flatMap_eq_of_forall_ne hnodup hmem hother

section Visited

variable {i : Index} {kind : NameKind} {name : QName} {ds : List Document}
  {refs : Document → Block → List NodeRef} {go : Findings → Block → Findings}

/-- For a document asked for a query finds what it takes from the blocks stored for it. -/
theorem nodes_visited_of_get?
    (hgo : ∀ f b doc, (go f b).nodes.nodes doc =
      f.nodes.nodes doc ++ (Findings.taken (.ofList ds) refs b).filter (·.doc == doc))
    (hrefs : ∀ d b, ∀ r ∈ refs d b, r.doc = d.id) {d : Document}
    (hd : (DocumentSet.ofList ds).get? d.id = some d) (hhome : i.store.Homes d) :
    (visited go ((DocumentSet.ofList ds).collections.map (i.storedValue? kind · name))
        {}).nodes.nodes d.id =
      ((i.storedBlocks kind d.collection name).filter (·.doc == d.id)).flatMap (refs d) := by
  have hmem := DocumentSet.mem_collections_of_get? hd
  have hnodup := DocumentSet.nodup_collections (.ofList ds)
  rw [nodes_visited (fun f b => hgo f b d.id), List.flatMap_map,
    ← flatMap_storedBlocks hnodup hmem hhome, ← flatMap_ite]
  -- From blocks of other documents nothing is taken for this one.
  have htaken : ∀ b, (Findings.taken (.ofList ds) refs b).filter (·.doc == d.id) =
      if b.doc == d.id then refs d b else [] := Findings.filter_taken hrefs hd
  simp only [htaken]
  rfl

/-- A walk finds nothing for a document that was not asked for. -/
theorem nodes_visited_of_get?_eq_none
    (hgo : ∀ f b doc, (go f b).nodes.nodes doc =
      f.nodes.nodes doc ++ (Findings.taken (.ofList ds) refs b).filter (·.doc == doc))
    (hrefs : ∀ d b, ∀ r ∈ refs d b, r.doc = d.id) {doc : DocId}
    (hdoc : (DocumentSet.ofList ds).get? doc = none) :
    (visited go ((DocumentSet.ofList ds).collections.map (i.storedValue? kind · name))
        {}).nodes.nodes doc = [] := by
  rw [nodes_visited (fun f b => hgo f b doc)]
  apply List.flatMap_eq_nil_iff.mpr
  intro b _
  exact Findings.filter_taken_of_get?_eq_none hrefs hdoc b

end Visited

end Index

end XmlIndex
