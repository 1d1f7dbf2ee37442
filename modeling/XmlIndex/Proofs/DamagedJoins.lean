import Mathlib
import XmlIndex.Proofs.LazySweeps
import XmlIndex.Proofs.QueryVisits

/-! # Joins over damaged values

A look-up decodes every block it takes as a whole, and fails at one that does not decode.  A join
sweeps over ordered blocks, and a sweep looks no farther than its ancestors ask for.  So the two
need not agree on a block whose body has a fault: the join fails at it as well, unless an entry in
front of the fault already lies behind everything below the nodes of the context
(`Index.join_refuses_broken`).  An unordered block is decoded as a whole by both. -/

namespace XmlIndex

namespace Block

variable {b : Block} {ancestors : List NodeRef}

/-- What is read of the block for a join has a fault: for one in order this is the body up to its
closing mark, for another one all that makes it decodable. -/
def Broken (b : Block) : Prop :=
  match b.order with
  | .ordered => ¬ Entry.Closes (.ofBytes b.body)
  | .unordered => ∀ es, b.entries ≠ .ok es

/-- The block is in order, and a reader meets an entry behind everything below the ancestors. -/
def Outruns (ancestors : List NodeRef) (b : Block) : Prop :=
  b.order = .ordered ∧
    ∃ m ∈ Entry.met (.ofBytes b.body), ∀ a ∈ ancestors, m.node.IsPast a.node

/-- A broken block does not decode. -/
theorem Broken.not_entries (h : b.Broken) (es : List Entry) : b.entries ≠ .ok es := by
  intro hentries
  rw [Broken] at h
  -- An ordered block is broken if its body does not close, which decoding it would show.
  cases ho : b.order with
  | ordered =>
    rw [ho] at h
    exact h (Entry.closes_of_takes (entries_eq_ok_iff.mp hentries).1)
  | unordered =>
    rw [ho] at h
    exact h es hentries

/-- A block whose fault is not come to can be joined. -/
theorem Outruns.joinable (h : b.Outruns ancestors) : b.Joinable ancestors := by
  rw [Joinable, h.1]
  exact .inr h.2

/-- A broken block that can be joined has its fault behind all that is asked for. -/
theorem Broken.outruns (h : b.Broken) (hj : b.Joinable ancestors) : b.Outruns ancestors := by
  rw [Broken] at h
  rw [Joinable] at hj
  cases ho : b.order with
  | ordered =>
    rw [ho] at h hj
    exact ⟨ho, hj.resolve_left h⟩
  | unordered =>
    rw [ho] at h hj
    obtain ⟨es, hes⟩ := hj
    exact absurd hes (h es)

end Block

namespace Index

variable {i i' : Index} {kind : NameKind} {axis : Axis} {docs : DocumentSet} {name : QName}
  {context result : NodeSet} {contextId? : Option UInt32}

/-- The join takes the block, with these nodes of the context as ancestors. -/
def Joins (i : Index) (kind : NameKind) (docs : DocumentSet) (name : QName) (context : NodeSet)
    (b : Block) (ancestors : List NodeRef) : Prop :=
  (∃ c ∈ docs.collections, b ∈ i.storedBlocks kind c name) ∧
    (∃ d, docs.get? b.doc = some d ∧ context.sortedNodes d.id = ancestors) ∧ ancestors ≠ []

/-- A block is passed over, or joined. -/
theorem joinBlock_ok_iff {f : Findings} {b : Block} :
    (∃ f', f.joinBlock kind axis docs context contextId? b = .ok f') ↔
      ∀ d, docs.get? b.doc = some d → context.sortedNodes d.id ≠ [] →
        b.Joinable (context.sortedNodes d.id) := by
  rw [Findings.joinBlock]
  cases hd : docs.get? b.doc with
  | none => simp
  | some d =>
    simp only [Option.some.injEq, forall_eq']
    -- Without a node of the document in the context nothing is read.
    by_cases hne : context.sortedNodes d.id = []
    · rw [hne]
      simp [JoinStep.joinBlock, bind, Except.bind]
    · rw [← JoinStep.joinBlock_ok_iff { doc := d.id, type := kind.nodeType, axis, contextId? }
        f.nodes hne]
      cases JoinStep.joinBlock _ (context.sortedNodes d.id) f.nodes b <;>
        simp [bind, Except.bind, hne]

/-- A join that succeeds has taken no block that cannot be joined. -/
theorem joinable_of_join (h : join kind axis docs name context contextId? i = .ok result i') :
    ∀ b ancestors, i.Joins kind docs name context b ancestors → b.Joinable ancestors := by
  obtain ⟨f, _, hvisits, _⟩ := Action.bind_eq_ok_iff.mp h
  rintro b _ ⟨⟨c, hc, hb⟩, ⟨d, hd, rfl⟩, hne⟩
  obtain ⟨g, hg⟩ := exists_visit_of_visitValues hvisits c hc b hb
  exact joinBlock_ok_iff.mp hg d hd hne

/-- A join succeeds where all blocks it takes can be joined. -/
theorem exists_join (hfree : i.store.isFree .read) (hget : i.store.planned .get = 0)
    (hkeys : ∀ c ∈ docs.collections, (i.key? kind c name).isSome)
    (hvalues : ∀ c ∈ docs.collections, ∀ value, i.storedValue? kind c name = some value →
      (Block.scan value).fault? = none)
    (hblocks : ∀ b ancestors, i.Joins kind docs name context b ancestors → b.Joinable ancestors)
    (axis : Axis) (contextId? : Option UInt32) :
    ∃ result i', join kind axis docs name context contextId? i = .ok result i' := by
  -- No block that is visited stands in the way, whatever was found before.
  have hvisit : ∀ c ∈ docs.collections, ∀ b ∈ i.storedBlocks kind c name, ∀ g : Findings,
      ∃ g', g.joinBlock kind axis docs context contextId? b = .ok g' := fun c hc b hb g =>
    joinBlock_ok_iff.mpr fun d hd hne => hblocks b _ ⟨⟨c, hc, hb⟩, ⟨d, hd, rfl⟩, hne⟩
  obtain ⟨f, i', hvisits⟩ := exists_visitValues _ hfree hget hkeys hvalues hvisit {}
  exact ⟨_, i', Action.bind_eq_ok_iff.mpr ⟨f, i', hvisits, rfl⟩⟩

/-- A join fails at a broken block, unless it comes to an entry of the block behind everything
below the nodes of the context; then it does not see the fault, and succeeds if nothing else is
in its way. -/
theorem join_refuses_broken (i : Index) (kind : NameKind) (axis : Axis) (docs : DocumentSet)
    (name : QName) (context : NodeSet) (contextId? : Option UInt32) :
    (∀ b ancestors, i.Joins kind docs name context b ancestors → b.Broken →
      ¬ b.Outruns ancestors →
      ∃ e i', join kind axis docs name context contextId? i = .error e i') ∧
    (i.store.isFree .read → i.store.planned .get = 0 →
      (∀ c ∈ docs.collections, (i.key? kind c name).isSome) →
      (∀ c ∈ docs.collections, ∀ value, i.storedValue? kind c name = some value →
        (Block.scan value).fault? = none) →
      (∀ b ancestors, i.Joins kind docs name context b ancestors →
        (∃ es, b.entries = .ok es) ∨ b.Outruns ancestors) →
      ∃ result i', join kind axis docs name context contextId? i = .ok result i') := by
  -- An answer would mean that the block can be joined, and so that the sweep is done before the
  -- fault.
  refine ⟨fun b ancestors htaken hbroken hnot => ?_, fun hfree hget hkeys hvalues hblocks => ?_⟩
  · cases h : join kind axis docs name context contextId? i with
    | error e i' => exact ⟨e, i', rfl⟩
    | ok result i' => exact absurd (hbroken.outruns (joinable_of_join h b ancestors htaken)) hnot
  · refine exists_join hfree hget hkeys hvalues (fun b ancestors htaken => ?_) axis contextId?
    rcases hblocks b ancestors htaken with ⟨es, hes⟩ | houtruns
    · exact Block.joinable_of_entries hes
    · exact houtruns.joinable

/-! ## Damaged blocks -/

/-- The name of id attributes. -/
def idAttr : QName := { kind := .attrId, localName := "id" }

/-- An index in which one value is stored under that name, in collection 7. -/
def holdingOnly (value : Bytes) : Index where
  store := ({ name := "nodes", timeout := ⟨100⟩ } : Store).place (Key.verbatim 7 "id").toBytes value
  symbols := .empty
  progressStep := 10

/-- A document of that collection. -/
def onlyDocs : DocumentSet := .ofList [⟨1, 7, "/db/a.xml"⟩]

/-- A context of one node of the document. -/
def contextAt (n : NodeId) : NodeSet := .ofList [{ doc := 1, node := n }]

section Holding

variable {b b' : Block} {n : NodeId} {ancestors : List NodeRef}

/-- The value is stored under the name. -/
theorem storedValue?_holdingOnly (value : Bytes) :
    (holdingOnly value).storedValue? .attrId 7 idAttr = some value := by
  have hvalue := Store.value?_place { name := "nodes", timeout := ⟨100⟩ }
    (Key.verbatim 7 "id").toBytes value (Key.verbatim 7 "id").toBytes
  rw [if_pos rfl] at hvalue
  exact hvalue

/-- The value is made of blocks. -/
theorem no_fault_holdingOnly (hscan : Block.scan b.raw = ⟨[b], none⟩) :
    ∀ c ∈ onlyDocs.collections, ∀ value,
      (holdingOnly b.raw).storedValue? .attrId c idAttr = some value →
      (Block.scan value).fault? = none := by
  intro c hc value hv
  obtain rfl : c = 7 := List.mem_singleton.mp hc
  obtain rfl := Option.some.inj ((storedValue?_holdingOnly b.raw).symm.trans hv)
  rw [hscan]

/-- The join takes the one block with the one node. -/
theorem joins_holdingOnly_iff (hscan : Block.scan b.raw = ⟨[b], none⟩) (hdoc : b.doc = 1) :
    (holdingOnly b.raw).Joins .attrId onlyDocs idAttr (contextAt n) b' ancestors ↔
      b' = b ∧ ancestors = [{ doc := 1, node := n }] := by
  have hblocks : (holdingOnly b.raw).storedBlocks .attrId 7 idAttr = [b] := by
    rw [storedBlocks, storedValue?_holdingOnly, blocksOf, hscan]
  have hcollections : onlyDocs.collections = [7] := rfl
  have hget : onlyDocs.get? b.doc = some ⟨1, 7, "/db/a.xml"⟩ := by
    rw [hdoc]
    rfl
  have hnodes : (contextAt n).sortedNodes 1 = [{ doc := 1, node := n }] := rfl
  rw [Joins, hcollections]
  simp only [List.mem_singleton, exists_eq_left, hblocks]
  -- The block is of the document asked for, and the context has its node.
  constructor
  · rintro ⟨rfl, ⟨d, hd, rfl⟩, _⟩
    obtain rfl := Option.some.inj (hget.symm.trans hd)
    exact ⟨rfl, hnodes⟩
  · rintro ⟨rfl, rfl⟩
    exact ⟨rfl, ⟨_, hget, hnodes⟩, List.cons_ne_nil _ _⟩

end Holding

/-- The entries of two nodes. -/
def twoEntries : List Entry := [⟨⟨[1, 1, 1]⟩, ⟨7⟩⟩, ⟨⟨[1, 2]⟩, ⟨8⟩⟩]

/-- A block with these entries, but without the closing mark. -/
def brokenOff : Block where
  doc := 1
  order := .ordered
  count := 2
  byteLength := 23
  raw := [1, 0, 2, 23, 0, 0, 0] ++ twoEntries.flatMap Entry.encode
  body := twoEntries.flatMap Entry.encode

/-- The value is the one block. -/
theorem scan_brokenOff : Block.scan brokenOff.raw = ⟨[brokenOff], none⟩ := by cbv

/-- A reader meets both entries and then no closing mark. -/
theorem met_brokenOff : Entry.met (.ofBytes brokenOff.body) = twoEntries ∧
    ¬ Entry.Closes (.ofBytes brokenOff.body) :=
  Entry.met_brokenOff (by simp [twoEntries, Entry.Storable, NodeId.Valid, UInt32.size])

/-- So the block is broken. -/
theorem broken_brokenOff : brokenOff.Broken := met_brokenOff.2

/-- Node 1.2 lies behind everything below node 1.1, but not behind itself. -/
theorem outruns_brokenOff :
    brokenOff.Outruns [{ doc := 1, node := ⟨[1, 1]⟩ }] ∧
      ¬ brokenOff.Outruns [{ doc := 1, node := ⟨[1, 2]⟩ }] := by
  simp only [Block.Outruns, met_brokenOff.1, List.forall_mem_singleton, NodeId.IsPast]
  decide

/-- The fault is noticed where the last entry is asked for, and not where the first is enough. -/
theorem join_brokenOff_refusedAtItsEnd :
    (∃ e i', join .attrId .descendantAttr onlyDocs idAttr (contextAt ⟨[1, 2]⟩) none
      (holdingOnly brokenOff.raw) = .error e i') ∧
    ∃ result i', join .attrId .descendantAttr onlyDocs idAttr (contextAt ⟨[1, 1]⟩) none
      (holdingOnly brokenOff.raw) = .ok result i' := by
  -- For 1.2 the sweep looks for an entry behind the last one; for 1.1 it is done before.
  constructor
  · exact (join_refuses_broken _ .attrId _ onlyDocs idAttr (contextAt ⟨[1, 2]⟩) none).1 brokenOff
      _ ((joins_holdingOnly_iff scan_brokenOff rfl).mpr ⟨rfl, rfl⟩) broken_brokenOff
      outruns_brokenOff.2
  · refine (join_refuses_broken _ .attrId _ onlyDocs idAttr (contextAt ⟨[1, 1]⟩) none).2 rfl rfl
      (fun _ _ => rfl) (no_fault_holdingOnly scan_brokenOff) fun b ancestors hjoins => ?_
    obtain ⟨rfl, rfl⟩ := (joins_holdingOnly_iff scan_brokenOff rfl).mp hjoins
    exact .inr outruns_brokenOff.1

/-- A block that is said to have a node, but has only its closing mark. -/
def miscounted : Block where
  doc := 1
  order := .ordered
  count := 1
  byteLength := 1
  raw := [1, 0, 1, 1, 0, 0, 0, 0]
  body := [0]

/-- The value is the one block. -/
theorem scan_miscounted : Block.scan miscounted.raw = ⟨[miscounted], none⟩ := by cbv

/-- Two blocks that do not decode, from which a join nevertheless answers: one breaks off behind
the last entry that is asked for, the other has another number of nodes than it says. -/
theorem join_answers_undecodable :
    ((holdingOnly brokenOff.raw).Joins .attrId onlyDocs idAttr (contextAt ⟨[1, 1]⟩) brokenOff
        [{ doc := 1, node := ⟨[1, 1]⟩ }] ∧
      Block.scan brokenOff.raw = ⟨[brokenOff], none⟩ ∧ (∀ es, brokenOff.entries ≠ .ok es) ∧
      ∃ result i', join .attrId .descendantAttr onlyDocs idAttr (contextAt ⟨[1, 1]⟩) none
        (holdingOnly brokenOff.raw) = .ok result i') ∧
    ((holdingOnly miscounted.raw).Joins .attrId onlyDocs idAttr (contextAt ⟨[1, 1]⟩) miscounted
        [{ doc := 1, node := ⟨[1, 1]⟩ }] ∧
      Block.scan miscounted.raw = ⟨[miscounted], none⟩ ∧
      miscounted.entries = .error (.blockMiscounted 1 1 0) ∧
      ∃ result i', join .attrId .descendantAttr onlyDocs idAttr (contextAt ⟨[1, 1]⟩) none
        (holdingOnly miscounted.raw) = .ok result i') := by
  refine ⟨⟨(joins_holdingOnly_iff scan_brokenOff rfl).mpr ⟨rfl, rfl⟩, scan_brokenOff,
    broken_brokenOff.not_entries, ?_⟩, (joins_holdingOnly_iff scan_miscounted rfl).mpr ⟨rfl, rfl⟩,
    scan_miscounted, by cbv, _, _, Action.eq_ok_of_outcomeOf (a := {}) (by cbv)⟩
  -- The sweep of the first block is done before the fault.
  refine exists_join rfl rfl (fun _ _ => rfl) (no_fault_holdingOnly scan_brokenOff)
    (fun b ancestors hjoins => ?_) _ _
  obtain ⟨rfl, rfl⟩ := (joins_holdingOnly_iff scan_brokenOff rfl).mp hjoins
  exact outruns_brokenOff.1.joinable

end Index

end XmlIndex
