import XmlIndex.Proofs.AlikeReports
import XmlIndex.Proofs.UpdateEffects

/-! # Updates of different documents commute

Two updates of different documents that succeed in either order lead to indexes that no query
tells apart (`Index.Run.updates_commute`).  The codes, and with them the keys, may differ, and so
may the order of the blocks under a key.  But each update has the same effect in both orders,
since it changes the blocks of its document only and goes by no others; so under every name there
are values with the same parts (`Index.alike_of_leads`).

What a query answers for one document can depend on the order of the blocks all the same, if its
selector puts references to nodes of different documents under one number
(`Index.lookup_inEitherOrder`). -/

namespace XmlIndex

open XmlIndex.Action
open Block (part)

namespace Index

section Commuting

variable {e e' : Effect} {doc doc' : DocId} {i i₁ i₁₂ i₂ i₂₁ : Index}

/-- Two effects on different documents, in either order. -/
theorem alike_of_leads (hne : doc ≠ doc')
    (h₁ : e.Leads doc i.symbols i.store i₁.symbols i₁.store)
    (h₁₂ : e'.Leads doc' i₁.symbols i₁.store i₁₂.symbols i₁₂.store)
    (h₂ : e'.Leads doc' i.symbols i.store i₂.symbols i₂.store)
    (h₂₁ : e.Leads doc i₂.symbols i₂.store i₂₁.symbols i₂₁.store)
    (hs : i₁₂.store.IntactFor i₁₂.symbols) (hs' : i₂₁.store.IntactFor i₂₁.symbols)
    (haccess : i₁₂.store.SameAccess i.store) (haccess' : i₂₁.store.SameAccess i.store)
    (hcalm : i.store.Calm) : Alike Interner.SameTexts SameParts i₁₂ i₂₁ := by
  have hintact : ∀ {s : Store} {t : SymbolTable}, s.IntactFor t → ∀ kind c q value,
      s.valueUnder t kind c q = some value → Block.IntactValue value := by
    intro s t hs kind c q value hv
    obtain ⟨k, _, hv⟩ := Option.bind_eq_some_iff.mp hv
    exact hs.values _ _ hv
  -- What texts are known does not depend on who asked first.
  have hnames : ∀ x, (i₁₂.symbols.names.code? x).isSome ↔ (i₂₁.symbols.names.code? x).isSome := by
    intro x
    rw [h₁₂.names, h₁.names, h₂₁.names, h₂.names, or_right_comm]
  have hnamespaces : ∀ x, (i₁₂.symbols.namespaces.code? x).isSome ↔
      (i₂₁.symbols.namespaces.code? x).isSome := by
    intro x
    rw [h₁₂.namespaces, h₁.namespaces, h₂₁.namespaces, h₂.namespaces, or_right_comm]
  have hparts : ∀ kind c q d, part d (i₂₁.store.blocksUnder i₂₁.symbols kind c q) =
      part d (i₁₂.store.blocksUnder i₁₂.symbols kind c q) := by
    intro kind c q d
    -- The blocks of a document are changed by its own update, which finds them as they were.
    by_cases hd : d = doc
    · subst hd
      rw [h₂₁.own, h₂.others d hne, h₁₂.others d hne, h₁.own]
    · by_cases hd' : d = doc'
      · subst hd'
        rw [h₂₁.others d hd, h₂.own, h₁₂.own, h₁.others d hd]
      · rw [h₂₁.others d hd, h₂.others d hd', h₁₂.others d hd', h₁.others d hd]
  refine {
    symbols := ⟨⟨fun x => (hnames x).mp, fun x => (hnames x).mpr⟩,
      ⟨fun x => (hnamespaces x).mp, fun x => (hnamespaces x).mpr⟩⟩
    named := hs.keys
    named' := hs'.keys
    values := fun kind c q => ⟨hintact hs kind c q, hintact hs' kind c q, ?_, hparts kind c q⟩
    free := fun mode => (haccess'.isFree mode).trans (haccess.isFree mode).symm
    readOnly := haccess'.readOnly.trans haccess.readOnly.symm
    calm := haccess.calm hcalm
    calm' := haccess'.calm hcalm }
  rw [Bool.eq_iff_iff, h₂₁.present, h₂.present, h₁₂.present, h₁.present, or_right_comm]

/-- In every state that a run comes to, two updates of different documents that succeed in both
orders lead to indexes that answer alike.  The selectors of the lookups keep to the document they
are asked about. -/
theorem Run.updates_commute {admits : Op → Prop} {calls : List (Op × Except Error Unit)}
    (h : Run admits calls i) (hcalm : i.store.Calm) {op op' : Op} {document document' : Document}
    (hdocument : op.document? = some document) (hdocument' : op'.document? = some document')
    (hne : document.id ≠ document'.id)
    (h₁ : op.run i = .ok () i₁) (h₁₂ : op'.run i₁ = .ok () i₁₂)
    (h₂ : op'.run i = .ok () i₂) (h₂₁ : op.run i₂ = .ok () i₂₁)
    (hfits₁ : op.Fits i) (hfits₁₂ : op'.Fits i₁) (hfits₂ : op'.Fits i) (hfits₂₁ : op.Fits i₂) :
    (∀ kind ds name select?, (∀ select ∈ select?, select.KeepsToDocument) →
      report (lookup kind (.ofList ds) name select? i₁₂) =
        report (lookup kind (.ofList ds) name select? i₂₁)) ∧
    (∀ kind axis ds name context contextId?, context.Built →
      report (join kind axis (.ofList ds) name context contextId? i₁₂) =
        report (join kind axis (.ofList ds) name context contextId? i₂₁)) ∧
    (∀ collections, report (census collections i₁₂) = report (census collections i₂₁)) ∧
    ∀ collection, report (statistics collection i₁₂) = report (statistics collection i₂₁) := by
  -- Each of the four updates starts from an intact store and keeps the access to it.
  have hintact : ∀ {op : Op} {i i' : Index}, i.store.IntactFor i.symbols → op.Fits i →
      op.run i = .ok () i' → i'.store.IntactFor i'.symbols := by
    intro op i i' hs hfits hrun
    have hdoes := op.does_run i
    rw [hrun] at hdoes
    exact hdoes.intactFor hfits hs
  have haccess : ∀ {op : Op} {i i' : Index}, op.run i = .ok () i' →
      i'.store.SameAccess i.store := by
    intro op i i' hrun
    have hsame := op.sameAccess_run i
    rwa [hrun] at hsame
  have hs := h.intact
  have hs₁ := hintact hs hfits₁ h₁
  have hs₂ := hintact hs hfits₂ h₂
  -- Both orders lead to the same parts under every name.
  have halike : Alike Interner.SameTexts SameParts i₁₂ i₂₁ :=
    alike_of_leads hne (Op.leads hdocument hs hfits₁ h₁) (Op.leads hdocument' hs₁ hfits₁₂ h₁₂)
      (Op.leads hdocument' hs hfits₂ h₂) (Op.leads hdocument hs₂ hfits₂₁ h₂₁)
      (hintact hs₁ hfits₁₂ h₁₂) (hintact hs₂ hfits₂₁ h₂₁)
      ((haccess h₁₂).trans (haccess h₁)) ((haccess h₂₁).trans (haccess h₂)) hcalm
  -- The same texts are known in the end, so the same names are refused.
  have hcodes : SymbolTable.Agreeing (fun _ => False) Interner.SameTexts :=
    fun s _ _ => Interner.agree_intern_of_sameTexts s
  refine ⟨fun kind ds name select? hselect => ?_,
    fun kind axis ds name context contextId? hcontext => ?_, fun collections => ?_,
    fun collection => ?_⟩
  · exact (halike.agree_lookup hcodes fun _ _ => sameVisit_addBlock hselect).report_eq
  · exact (halike.agree_join hcodes fun _ _ => sameVisit_joinBlock hcontext).report_eq
  · exact (halike.agree_census collections).report_eq
  · exact (halike.agree_statistics collection).report_eq

end Commuting

/-! ## Two additions -/

/-- A document of collection 7. -/
def documentOf (doc : DocId) : Document := ⟨doc, 7, "/db/a.xml"⟩

/-- The name that nodes are added under. -/
def idName : QName := { localName := "id", kind := .attrId }

/-- A batch with one more node of a document. -/
def additionOf (doc : DocId) (n : UInt32) : Batch :=
  (Batch.additions (documentOf doc)).restore idName [{ doc, node := ⟨[n]⟩ }]

/-- The block that the node is written as. -/
def blockOfAddition (doc : DocId) (n : UInt32) : Block :=
  Block.ofEntries doc .unordered [⟨⟨[n]⟩, .unknown⟩]

/-- The index after an addition. -/
def added (doc n : UInt32) (i : Index) : Index :=
  stateOf ((Op.flush (additionOf doc n)).run i)

theorem run_addition (doc n : UInt32) (i : Index)
    (h : outcomeOf ((Op.flush (additionOf doc n)).run i) = .ok ()) :
    (Op.flush (additionOf doc n)).run i = .ok () (added doc n i) := by
  unfold added
  generalize (Op.flush (additionOf doc n)).run i = r at h
  cases r with
  | ok a s => rfl
  | error e s => cases h

theorem fits_additionOf (doc : DocId) {n : UInt32} (hn : n = 1 ∨ n = 2) :
    (additionOf doc n).Fits :=
  (Batch.fits_of_pending rfl).restore (List.cons_ne_nil _ _) (fitBlock_one hn)

theorem updates_commute_additions :
    (documentOf 1).id ≠ (documentOf 2).id ∧
    (Op.flush (additionOf 2 2)).run (added 1 1 fresh) = .ok () (added 2 2 (added 1 1 fresh)) ∧
    (Op.flush (additionOf 1 1)).run (added 2 2 fresh) = .ok () (added 1 1 (added 2 2 fresh)) ∧
    ∀ kind ds name,
      report (lookup kind (.ofList ds) name none (added 2 2 (added 1 1 fresh))) =
        report (lookup kind (.ofList ds) name none (added 1 1 (added 2 2 fresh))) := by
  have hfits₁ := fits_additionOf 1 (.inl rfl : (1 : UInt32) = 1 ∨ (1 : UInt32) = 2)
  have hfits₂ := fits_additionOf 2 (.inr rfl : (2 : UInt32) = 1 ∨ (2 : UInt32) = 2)
  have h₁ := run_addition 1 1 fresh rfl
  have h₂ := run_addition 2 2 fresh rfl
  have h₁₂ := run_addition 2 2 (added 1 1 fresh) rfl
  have h₂₁ := run_addition 1 1 (added 2 2 fresh) rfl
  have hstart : Run (fun _ => True) [] fresh := .start rfl
  -- The index is empty at first, and both orders go through.
  have hcommute := hstart.updates_commute (fun _ => rfl) rfl rfl (by decide) h₁ h₁₂ h₂ h₂₁
    hfits₁ hfits₂ hfits₂ hfits₁
  refine ⟨by decide, h₁₂, h₂₁, fun kind ds name => hcommute.1 kind ds name none fun _ h => ?_⟩
  cases h

/-- The selector that answers references to document 1 for whatever it is asked about. -/
def asFirst : Selector := fun _ n => some { doc := 1, node := n }

/-- The documents of both additions. -/
def bothDocuments : DocumentSet := .ofList [documentOf 1, documentOf 2]

theorem valueUnder_additions :
    (added 2 2 (added 1 1 fresh)).store.value? (Key.verbatim 7 "id").toBytes =
        some (Block.valueOf [blockOfAddition 1 1, blockOfAddition 2 2]) ∧
      (added 1 1 (added 2 2 fresh)).store.value? (Key.verbatim 7 "id").toBytes =
        some (Block.valueOf [blockOfAddition 2 2, blockOfAddition 1 1]) := by
  -- One node needs no sorting.
  have hblock : ∀ doc n, (additionOf doc n).blockOf [{ doc, node := ⟨[n]⟩ }] =
      (blockOfAddition doc n).raw := by
    intro doc n
    simp only [Batch.blockOf, NodeRef.sort, List.mergeSort_singleton]
    rfl
  constructor
  · have hvalue : (added 2 2 (added 1 1 fresh)).store.value? (Key.verbatim 7 "id").toBytes =
        some ((additionOf 1 1).blockOf [{ doc := 1, node := ⟨[1]⟩ }] ++
          (additionOf 2 2).blockOf [{ doc := 2, node := ⟨[2]⟩ }]) := rfl
    rw [hvalue, hblock, hblock]
    simp
  · have hvalue : (added 1 1 (added 2 2 fresh)).store.value? (Key.verbatim 7 "id").toBytes =
        some ((additionOf 2 2).blockOf [{ doc := 2, node := ⟨[2]⟩ }] ++
          (additionOf 1 1).blockOf [{ doc := 1, node := ⟨[1]⟩ }]) := rfl
    rw [hvalue, hblock, hblock]
    simp

/-- What is found for a node with this selector. -/
def asFound (n : UInt32) : NodeRef := { doc := 1, node := ⟨[n]⟩, type? := some .attr }

/-- With this selector the nodes are found in the order of their blocks. -/
theorem lookup_asFirst {i : Index} {doc n doc' n' : UInt32} (hfree : i.store.isFree .read)
    (hget : i.store.planned .get = 0) (hdoc : bothDocuments.contains doc)
    (hdoc' : bothDocuments.contains doc') (hn : n = 1 ∨ n = 2) (hn' : n' = 1 ∨ n' = 2)
    (hvalue : i.store.value? (Key.verbatim 7 "id").toBytes =
      some (Block.valueOf [blockOfAddition doc n, blockOfAddition doc' n'])) :
    ∃ found i', lookup .attrId bothDocuments idName (some asFirst) i = .ok found i' ∧
       (found.nodes 1).map (·.node) = [⟨[n]⟩, ⟨[n']⟩] := by
  have hbs : ∀ b ∈ [blockOfAddition doc n, blockOfAddition doc' n'], b.WellFramed ∧ b.Sound := by
    have hblock : ∀ doc n, n = 1 ∨ n = 2 →
        (blockOfAddition doc n).WellFramed ∧ (blockOfAddition doc n).Sound := fun doc n hn =>
      ⟨Block.wellFramed_ofEntries doc .unordered (fitBlock_one hn),
        Block.sound_ofEntries doc (fitBlock_one hn) fun h => nomatch h⟩
    simpa using ⟨hblock doc n hn, hblock doc' n' hn'⟩
  have hscan := Block.scan_eq_iff.mpr ⟨rfl, fun b hb => (hbs b hb).1⟩
  -- Each block adds its node to those of document 1.
  have hnodes : ∀ f doc n, bothDocuments.contains doc → (n = 1 ∨ n = 2) →
      (Findings.added .attrId (some asFirst) bothDocuments (blockOfAddition doc n) f).nodes.nodes
        1 = f.nodes.nodes 1 ++ [asFound n] := by
    intro f doc n hdoc hn
    obtain ⟨document, hget⟩ := Option.isSome_iff_exists.mp hdoc
    have hadded : Findings.added .attrId (some asFirst) bothDocuments (blockOfAddition doc n) f =
        { f with nodes := (f.nodes.add (asFound n)).noteSorted document.id false } := by
      have hcontent : (blockOfAddition doc n).content = [⟨⟨[n]⟩, .unknown⟩] :=
        Block.content_ofEntries doc .unordered (fitBlock_one hn)
      have hdocument : bothDocuments.get? (blockOfAddition doc n).doc = some document := hget
      rw [Findings.added, hdocument, hcontent]
      rfl
    rw [hadded, NodeSet.nodes_noteSorted, NodeSet.nodes_add, asFound, if_pos rfl]
  have hkeys : ∀ c ∈ bothDocuments.collections, (i.key? .attrId c idName).isSome := fun _ _ => rfl
  have hvalues : ∀ c ∈ bothDocuments.collections, ∀ value,
      i.storedValue? .attrId c idName = some value →
      Visitable (Findings.addBlock .attrId (some asFirst) bothDocuments)
        (fun f b => Findings.added .attrId (some asFirst) bothDocuments b f) value := by
    intro c hc value hv
    obtain rfl : c = 7 := List.mem_singleton.mp hc
    obtain rfl := Option.some.inj (hvalue.symm.trans hv)
    rw [Visitable, hscan]
    exact ⟨rfl, fun b hb f => Findings.addBlock_eq_added (hbs b hb).2.entries_eq f⟩
  -- There is one value, and the look-up visits its two blocks in order.
  obtain ⟨i', hvisit, _⟩ := visitValues_eq_ok hfree hget hkeys hvalues {}
  refine ⟨_, i', bind_eq_ok_iff.mpr ⟨_, i', hvisit, rfl⟩, ?_⟩
  have hstored : i.storedValue? .attrId 7 idName =
      some (Block.valueOf [blockOfAddition doc n, blockOfAddition doc' n']) := hvalue
  have hcollections : bothDocuments.collections = [7] := rfl
  rw [Findings.nodes_answer, hcollections, List.map_singleton, hstored, visited, visited, hscan,
    List.foldl_cons, List.foldl_cons, List.foldl_nil, hnodes _ doc' n' hdoc' hn',
    hnodes _ doc n hdoc hn]
  rfl

/-- With such a selector the order of two updates can be told. -/
theorem lookup_inEitherOrder :
    (Op.flush (additionOf 2 2)).run (added 1 1 fresh) = .ok () (added 2 2 (added 1 1 fresh)) ∧
    (Op.flush (additionOf 1 1)).run (added 2 2 fresh) = .ok () (added 1 1 (added 2 2 fresh)) ∧
    report (lookup .attrId bothDocuments idName (some asFirst) (added 2 2 (added 1 1 fresh))) ≠
      report (lookup .attrId bothDocuments idName (some asFirst)
        (added 1 1 (added 2 2 fresh))) := by
  obtain ⟨hvalue, hvalue'⟩ := valueUnder_additions
  -- The selector answers the first document for both blocks, so the order of the blocks shows.
  obtain ⟨found, j, hfound, hnodes⟩ := lookup_asFirst rfl rfl rfl rfl (.inl rfl) (.inr rfl) hvalue
  obtain ⟨found', j', hfound', hnodes'⟩ :=
    lookup_asFirst rfl rfl rfl rfl (.inr rfl) (.inl rfl) hvalue'
  refine ⟨run_addition 2 2 _ rfl, run_addition 1 1 _ rfl, fun heq => ?_⟩
  rw [hfound, hfound'] at heq
  rw [Except.ok.inj heq, hnodes'] at hnodes
  exact absurd hnodes (by decide)

end Index

end XmlIndex
