import XmlIndex.Index.Census
import XmlIndex.Index.Statistics
import XmlIndex.Proofs.OpenCalls

/-! # What is stored in the course of a run

`Index.Run.stored_values` says what every value is like, in every state that a run of the
index can come to: it is read to its end without an error, its blocks hold the number of
entries they declare, and its key is that of a name the symbol table knows.  It follows that a
census and the statistics do not fail (`Index.census_eq_ok`, `Index.statistics_eq_ok`).

What a removal writes is better than what a flush writes: no node id comes twice
(`Index.Op.writesAscending`). -/

namespace XmlIndex

/-! ## Keys and values -/

/-- A key goes back to a name. -/
theorem Key.exists_name_of_lookup? {t : SymbolTable} {kind : NameKind}
    {collection : CollectionId} {name : QName} {k : Key}
    (h : lookup? t kind collection name = some k) : ∃ name', k.name t = .ok name' := by
  by_cases hk : kind = .attrId
  · subst hk
    obtain rfl := Option.some.inj h
    exact ⟨_, rfl⟩
  · obtain ⟨symbol, ns, hsymbols, hname, hnamespace⟩ := codes_of_lookup? hk h
    rw [Key.name, hsymbols]
    simp only [hname, hnamespace]
    exact ⟨_, rfl⟩

/-- A stored value and its key can be read. -/
structure Readable (t : SymbolTable) (key value : Bytes) : Prop where
  no_fault : (Block.scan value).fault? = none
  to_end : Block.valueOf (Block.scan value).blocks = value
  counted : ∀ b ∈ (Block.scan value).blocks, 1 ≤ b.count.toNat ∧
    ∃ es, b.entries = .ok es ∧ es.length = b.count.toNat ∧
      (b.order = .ordered → es.Pairwise fun a b => a.node ≤ b.node)
  oneOrdered : (Block.scan value).blocks.Pairwise fun a b =>
    a.order = .ordered → b.order = .ordered → a.doc ≠ b.doc
  named : ∃ k name, Key.ofBytes key = .ok k ∧ k.name t = .ok name

/-- In an intact store every value and its key can be read. -/
theorem Store.IntactFor.readable {s : Store} {t : SymbolTable} {key value : Bytes}
    (h : s.IntactFor t) (hv : s.value? key = some value) : Readable t key value := by
  obtain ⟨bs, hbs, rfl⟩ := h.values key value hv
  obtain ⟨kind, collection, name, k, hlookup, rfl⟩ := h.keys key (by rw [hv]; rfl)
  have hscan := hbs.scan_eq
  have hcounted : ∀ b ∈ bs, 1 ≤ b.count.toNat ∧
      ∃ es, b.entries = .ok es ∧ es.length = b.count.toNat ∧
        (b.order = .ordered → es.Pairwise fun a b => a.node ≤ b.node) := by
    intro b hb
    have hsound := hbs.sound b hb
    have hcount := (Block.entries_eq_ok_iff.mp hsound.entries_eq).2
    -- No block is empty, so it declares an entry at least.
    have hpos := List.length_pos_iff.mpr (hbs.nonempty b hb)
    exact ⟨by omega, b.content, hsound.entries_eq, hcount, hsound.sorted⟩
  obtain ⟨name', hname⟩ := Key.exists_name_of_lookup? hlookup
  exact {
    no_fault := by rw [hscan]
    to_end := by rw [hscan]
    counted := by rw [hscan]; exact hcounted
    oneOrdered := by rw [hscan]; exact hbs.oneOrdered
    named := ⟨k, name', Key.ofBytes_toBytes k, hname⟩ }

/-! ## Reports -/

/-- A walk in which every step succeeds does so. -/
theorem exists_foldlM_eq_ok {α β ε : Type} {f : β → α → Except ε β} {l : List α}
    (h : ∀ a ∈ l, ∀ x, ∃ y, f x a = .ok y) (x : β) : ∃ y, l.foldlM f x = .ok y := by
  induction l generalizing x with
  | nil => exact ⟨x, rfl⟩
  | cons a l ih =>
    obtain ⟨ha, hl⟩ := List.forall_mem_cons.mp h
    obtain ⟨y, hy⟩ := ha x
    obtain ⟨z, hz⟩ := ih hl y
    refine ⟨z, ?_⟩
    rw [List.foldlM_cons, hy]
    exact hz

/-- A walk through a value without a fault whose visits succeed. -/
theorem Framing.exists_fold_eq_ok {β : Type} {f : Framing} (h : f.fault? = none)
    {visit : β → Block → Except Error β} (hvisit : ∀ x b, ∃ y, visit x b = .ok y) (x : β) :
    ∃ y, f.fold visit x = .ok y := by
  rw [fold_of_no_fault h]
  exact exists_foldlM_eq_ok (fun b _ x => hvisit x b) x

namespace Index

section Reports

variable {s : Store} {t : SymbolTable} {i : Index}

/-- A parsed entry of a store that is intact. -/
def ReadableEntry (t : SymbolTable) (e : Key × Bytes) : Prop :=
  (∃ name, e.1.name t = .ok name) ∧ (Block.scan e.2).fault? = none

/-- The keys of readable entries can be parsed. -/
theorem exists_parseKeys {entries : List (Bytes × Bytes)}
    (h : ∀ e ∈ entries, Readable t e.1 e.2) :
    ∃ parsed, parseKeys entries = .ok parsed ∧ ∀ e ∈ parsed, ReadableEntry t e := by
  -- The keys are parsed in the order of the entries, and the first failure would end it.
  induction entries with
  | nil => exact ⟨[], rfl, fun _ h => absurd h List.not_mem_nil⟩
  | cons e entries ih =>
    obtain ⟨key, value⟩ := e
    obtain ⟨he, hentries⟩ := List.forall_mem_cons.mp h
    obtain ⟨parsed, hparsed, hall⟩ := ih hentries
    obtain ⟨k, name, hkey, hname⟩ := he.named
    refine ⟨(k, value) :: parsed, ?_, List.forall_mem_cons.mpr ⟨⟨⟨name, hname⟩, he.no_fault⟩, hall⟩⟩
    have hfirst : Key.ofBytes key = .ok k := hkey
    rw [parseKeys] at hparsed ⊢
    simp only [List.mapM_cons, hfirst, hparsed]
    rfl

variable (hs : s.IntactFor t) (hcalm : s.planned .findEntries = 0)

include hs hcalm

/-- The entries of some families are found in a store that is intact. -/
theorem entriesOfKinds_eq_ok (collection : CollectionId) (kinds : List NameKind) :
    ∃ entries, entriesOfKinds collection kinds s = .ok entries s ∧
      ∀ e ∈ entries, ReadableEntry t e := by
  -- Induction on the families, each of which is one search.
  induction kinds with
  | nil => exact ⟨[], rfl, fun _ h => absurd h List.not_mem_nil⟩
  | cons kind kinds ih =>
    obtain ⟨more, hmore, hmoreEntries⟩ := ih
    have hfind := Store.findEntries_of_planned hcalm (rangeOf kind collection)
    -- The entries found are stored ones, and these can be read.
    have hreadable : ∀ e ∈ ((rangeOf kind collection).scan s.entries.entries).map
        fun e => (e.1, e.2.data), Readable t e.1 e.2 := by
      intro e he
      obtain ⟨⟨key, slot⟩, hmem, rfl⟩ := List.mem_map.mp he
      rw [KeyRange.scan_eq_filter _ s.entries.ascending] at hmem
      have hslot := SortedMap.mem_entries_iff.mp (List.mem_filter.mp hmem).1
      exact hs.readable (Store.value?_of_get? hslot)
    obtain ⟨here, hparse, hhereEntries⟩ := exists_parseKeys hreadable
    refine ⟨here ++ more, ?_, List.forall_mem_append.mpr ⟨hhereEntries, hmoreEntries⟩⟩
    refine Action.bind_eq_ok_iff.mpr ⟨_, s, hfind, ?_⟩
    refine Action.bind_eq_ok_iff.mpr ⟨here, s, Action.ofExcept_eq_ok_iff.mpr ⟨hparse, rfl⟩, ?_⟩
    exact Action.bind_eq_ok_iff.mpr ⟨more, s, hmore, rfl⟩

/-- The census of some collections succeeds in a store that is intact. -/
theorem countCollections_eq_ok (collections : List CollectionId)
    (counts : SortedMap QName NameCount) :
    ∃ counts', countCollections t collections counts s = .ok counts' s := by
  -- Induction on the collections, over any counts so far.
  induction collections generalizing counts with
  | nil => exact ⟨counts, rfl⟩
  | cons collection collections ih =>
    obtain ⟨entries, hentries, hreadable⟩ :=
      entriesOfKinds_eq_ok hs hcalm collection NameKind.all
    -- An entry is counted under its name, and its value has no fault to stop at.
    have hstep : ∀ e ∈ entries, ∀ counts, ∃ counts', countEntry t counts e = .ok counts' := by
      intro e he counts
      obtain ⟨⟨name, hname⟩, hfault⟩ := hreadable e he
      have hadd : ∀ c : NameCount, ∃ c', c.addValue e.2 = .ok c' := fun c =>
        Framing.exists_fold_eq_ok hfault (fun c b => ⟨_, rfl⟩) c
      obtain ⟨count, hcount⟩ := hadd ((counts.get? name).getD { name })
      refine ⟨counts.insert name count, ?_⟩
      rw [countEntry, hname]
      show (NameCount.addValue _ _ >>= _) = _
      rw [hcount]
      rfl
    -- The entries of this collection are counted, and then those of the others.
    obtain ⟨counts₁, hcounts⟩ := exists_foldlM_eq_ok hstep counts
    obtain ⟨counts₂, hrest⟩ := ih counts₁
    refine ⟨counts₂, Action.bind_eq_ok_iff.mpr ⟨entries, s, hentries, ?_⟩⟩
    exact Action.bind_eq_ok_iff.mpr
      ⟨counts₁, s, Action.ofExcept_eq_ok_iff.mpr ⟨hcounts, rfl⟩, hrest⟩

omit hs hcalm

/-- A census of an intact store succeeds once it has the lock. -/
theorem census_eq_ok (hs : i.store.IntactFor i.symbols) (hfree : i.store.isFree .read)
    (hcalm : i.store.planned .findEntries = 0) (collections : List CollectionId) :
    ∃ counts, census collections i = .ok counts i := by
  obtain ⟨counts, hcounts⟩ := countCollections_eq_ok hs hcalm collections .empty
  refine ⟨counts.values, Action.bind_eq_ok_iff.mpr ⟨i, i, rfl, ?_⟩⟩
  refine Action.bind_eq_ok_iff.mpr ⟨counts, i, ?_, rfl⟩
  refine Action.on_eq_ok_iff.mpr ⟨i.store, ?_, rfl⟩
  rw [Store.locked_of_isFree hfree, hcounts]

/-- So do the statistics of a collection. -/
theorem statistics_eq_ok (hs : i.store.IntactFor i.symbols) (hfree : i.store.isFree .read)
    (hcalm : i.store.planned .findEntries = 0) (collection : CollectionId) :
    ∃ size, statistics collection i = .ok size i := by
  obtain ⟨entries, hentries, hreadable⟩ :=
    entriesOfKinds_eq_ok hs hcalm collection NameKind.all
  -- Adding up a value fails only at a fault, and there is none.
  have hstep : ∀ e ∈ entries, ∀ size : Statistics, ∃ size', size.addValue e.2 = .ok size' :=
    fun e he size => Framing.exists_fold_eq_ok (hreadable e he).2 (fun c b => ⟨_, rfl⟩) _
  obtain ⟨size, hsize⟩ := exists_foldlM_eq_ok hstep { collection }
  refine ⟨size, ?_⟩
  rw [statistics, onStore]
  refine Action.on_eq_ok_iff.mpr ⟨i.store, ?_, rfl⟩
  rw [Store.locked_of_isFree hfree]
  exact Action.bind_eq_ok_iff.mpr
    ⟨entries, i.store, hentries, Action.ofExcept_eq_ok_iff.mpr ⟨hsize, rfl⟩⟩

end Reports

/-! ## What a removal writes -/

/-- The block is ordered, and no node id comes twice in it. -/
def Ascending (b : Block) : Prop :=
  b.order = .ordered ∧ b.content.Pairwise fun a b => a.node < b.node

/-- Every block of the second index ascends or stood under its key in the first. -/
def WritesAscending (i i' : Index) : Prop :=
  ∀ key, ∀ b ∈ blocksOf (i'.store.value? key), b ∈ blocksOf (i.store.value? key) ∨ Ascending b

section Removals

variable {i i₁ i' : Index} {document : Document} {name : QName} {removed : List NodeId}
  {e : Error}

/-- What two calls write ascends if it does for each of them. -/
theorem WritesAscending.trans (h : WritesAscending i i₁) (h' : WritesAscending i₁ i') :
    WritesAscending i i' :=
  fun key b hb => (h' key b hb).elim (h key b) .inr

/-- A call that writes nothing writes no block that does not ascend. -/
theorem writesAscending_of_sameUpToPlan (h : i'.store.SameUpToPlan i.store) :
    WritesAscending i i' := fun key b hb => by
  rw [h.value?] at hb
  exact .inl hb

/-- What a removal writes ascends, and it is the only block of the document under the key. -/
theorem removeNodes_ascending (hs : i.store.IntactFor i.symbols)
    (hfits : i.RemovalFits document name removed)
    (h : removeNodes document name removed i = .ok () i') :
    WritesAscending i i' ∧
      ∃ k, Key.ofName name.kind document.collection name i.symbols = .ok k i'.symbols ∧
        ∀ b ∈ blocksOf (i'.store.value? k.toBytes), b.doc = document.id → Ascending b := by
  obtain ⟨k, bs, hof, hbs, hvalue, hlength, hstore⟩ := removeNodes_blocks hs hfits h
  -- What stands under the key afterwards are the rewritten blocks.
  have hafter : blocksOf (i'.store.value? k.toBytes) =
      Block.rewritten document.id removed bs := by
    rw [hstore, if_pos rfl]
    exact blocksOf_of_getD (hbs.rewritten hlength) rfl
  refine ⟨fun key b hb => ?_, k, hof, fun b hb hdoc => ?_⟩
  -- Under the key of the name the blocks are kept or merged; under other keys nothing changes.
  · by_cases hkey : key = k.toBytes
    · subst hkey
      rw [hafter] at hb
      rw [blocksOf_of_getD hbs hvalue]
      exact (Block.ascending_of_mem_rewritten hbs hlength hb).imp And.left And.right
    · rw [hstore, if_neg hkey] at hb
      exact .inl hb
  · rw [hafter] at hb
    rcases Block.ascending_of_mem_rewritten hbs hlength hb with ⟨_, hne⟩ | ⟨_, hasc⟩
    · exact absurd hdoc hne
    · exact hasc

/-- All that the removals of a batch write ascends. -/
theorem Removals.writesAscending {b : Batch} {names : List QName}
    (h : Removals b names i i') (hfits : RemovalsFit b names i)
    (hs : i.store.IntactFor i.symbols) : WritesAscending i i' := by
  induction h with
  | nil => exact fun key b hb => .inl hb
  | cons known removed rest ih =>
    obtain ⟨hfirst, hrest⟩ := hfits _ known
    have hhere := (removeNodes_ascending hs hfirst removed).1
    exact hhere.trans (ih (hrest _ removed) (intactFor_of_removeNodes hs hfirst removed))

/-- The calls that remove nodes. -/
def Op.IsRemoval : Op → Prop
  | .removeNodes _ _ _ | .removeBatch _ => True
  | .flush _ | .dropDocument _ _ | .dropCollection _ => False

/-- Whatever a removal has written when it ends, successful or not, ascends. -/
theorem Op.Does.writesAscending {op : Op} {outcome : Except Error Unit}
    (h : op.Does i outcome i') (hop : op.IsRemoval) (hfits : op.Fits i)
    (hs : i.store.IntactFor i.symbols) : WritesAscending i i' := by
  -- Only the removals write here; those that fail have changed nothing, or the names in front only.
  cases h with
  | removed h => exact (removeNodes_ascending hs hfits h).1
  | removeFailed h => exact writesAscending_of_sameUpToPlan (removeNodes_eq_error h).1
  | batchRemoved removals => exact removals.writesAscending hfits hs
  | batchStopped names removals known failed =>
    rw [Op.Fits, names] at hfits
    exact (removals.writesAscending hfits.front hs).trans
      (writesAscending_of_sameUpToPlan (removeNodes_eq_error failed).1)
  | flushed | flushStopped | dropped | dropStopped | cleared | clearStopped => exact hop.elim

end Removals

/-! ## The whole store -/

/-- In every state that a run comes to, all values and keys can be read, the blocks that a
removal writes ascend, and a census and the statistics that get the lock succeed. -/
theorem Run.stored_values {admits : Op → Prop} {calls : List (Op × Except Error Unit)}
    {i : Index} (h : Run admits calls i) :
    (∀ key value, i.store.value? key = some value → Readable i.symbols key value) ∧
    (∀ op : Op, op.IsRemoval → op.Fits i → WritesAscending i (Action.stateOf (op.run i))) ∧
    (∀ document name removed i', i.RemovalFits document name removed →
      removeNodes document name removed i = .ok () i' →
      ∃ k, Key.ofName name.kind document.collection name i.symbols = .ok k i'.symbols ∧
        ∀ b ∈ blocksOf (i'.store.value? k.toBytes), b.doc = document.id → Ascending b) ∧
    (i.store.isFree .read → i.store.planned .findEntries = 0 →
      (∀ collections, ∃ counts, census collections i = .ok counts i) ∧
        ∀ collection, ∃ size, statistics collection i = .ok size i) := by
  have hs := h.intact
  refine ⟨fun key value hv => hs.readable hv, fun op hop hfits =>
    (op.does_run i).writesAscending hop hfits hs,
    fun document name removed i' hfits h => (removeNodes_ascending hs hfits h).2,
    fun hfree hcalm => ⟨census_eq_ok hs hfree hcalm, statistics_eq_ok hs hfree hcalm⟩⟩

/-- An empty index. -/
def fresh : Index where
  store := { name := "nodes", timeout := ⟨100⟩ }
  symbols := .empty
  progressStep := 10

/-- One node on the first level fits into a block. -/
theorem fitBlock_one {n : UInt32} (h : n = 1 ∨ n = 2) :
    Entry.FitBlock [⟨⟨[n]⟩, .unknown⟩] := by
  rcases h with rfl | rfl <;> constructor <;>
    simp [Entry.Storable, NodeId.Valid, UInt32.size, Entry.encodeBody, Entry.encode,
      NodeId.encode, NodeId.encodeEnd, Varint.encode, Varint.encodeNat]

/-- A batch of one node keeps to the limits. -/
theorem fits_oneNode : oneNode.Fits :=
  (Batch.fits_of_pending rfl).restore (List.cons_ne_nil _ _) (fitBlock_one (.inl rfl))

/-- The flush of one node into an empty index is a run. -/
theorem run_flush_oneNode (admits : Op → Prop) (h : admits (.flush oneNode)) :
    Run admits [(.flush oneNode, .ok ())] (Action.stateOf ((Op.flush oneNode).run fresh)) :=
  .call (i := fresh) (.start rfl) h fits_oneNode

/-! ## Two names of a document -/

/-- A batch of two names with a node each keeps to the limits. -/
theorem fits_twoNames : twoNames.Fits :=
  fits_oneNode.restore (List.cons_ne_nil _ _) (fitBlock_one (.inr rfl))

/-- A batch with one more node of the document of `oneNode`, under the same name. -/
def anotherNode : Batch :=
  (Batch.additions ⟨1, 7, "/db/a.xml"⟩).restore { localName := "id", kind := .attrId }
    [{ doc := 1, node := ⟨[2]⟩ }]

/-- The batch of the addition keeps to the limits. -/
theorem fits_anotherNode : anotherNode.Fits :=
  (Batch.fits_of_pending rfl).restore (List.cons_ne_nil _ _) (fitBlock_one (.inr rfl))

/-- The block that one node of document 1 is written as. -/
def blockOfNode (order : BlockOrder) (n : UInt32) : Block :=
  Block.ofEntries 1 order [⟨⟨[n]⟩, .unknown⟩]

/-- The blocks of the first load and of the addition. -/
theorem valueOf_blockOfNode :
    oneNode.blockOf [{ doc := 1, node := ⟨[1]⟩ }] ++
      anotherNode.blockOf [{ doc := 1, node := ⟨[2]⟩ }] =
    Block.valueOf [blockOfNode .ordered 1, blockOfNode .unordered 2] := by
  simp only [Batch.blockOf, NodeRef.sort, List.mergeSort_singleton, Block.valueOf_cons,
    Block.valueOf_nil, List.append_nil]
  rfl

/-- The two blocks under the name are found in their value. -/
theorem scan_blockOfNode :
    Block.scan (Block.valueOf [blockOfNode .ordered 1, blockOfNode .unordered 2]) =
      ⟨[blockOfNode .ordered 1, blockOfNode .unordered 2], none⟩ := by
  have hframed : ∀ b ∈ [blockOfNode .ordered 1, blockOfNode .unordered 2], b.WellFramed := by
    simp only [List.forall_mem_cons, List.not_mem_nil, false_implies, implies_true, and_true]
    exact ⟨Block.wellFramed_ofEntries 1 .ordered (fitBlock_one (.inl rfl)),
      Block.wellFramed_ofEntries 1 .unordered (fitBlock_one (.inr rfl))⟩
  exact Block.scan_eq_iff.mpr ⟨rfl, hframed⟩

/-- The block of a node holds this node. -/
theorem content_blockOfNode (order : BlockOrder) {n : UInt32} (h : n = 1 ∨ n = 2) :
    (blockOfNode order n).content = [⟨⟨[n]⟩, .unknown⟩] :=
  Block.content_ofEntries 1 order (fitBlock_one h)

/-- Without the first node the second one survives. -/
theorem survivors_blockOfNode :
    Block.survivors 1 [⟨[1]⟩] [blockOfNode .ordered 1, blockOfNode .unordered 2] =
      [⟨⟨[2]⟩, .unknown⟩] := by
  have hentries : Block.entriesIn 1 [blockOfNode .ordered 1, blockOfNode .unordered 2] =
      (blockOfNode .ordered 1).content ++ ((blockOfNode .unordered 2).content ++ []) := rfl
  rw [Block.survivors, hentries, content_blockOfNode _ (.inl rfl), content_blockOfNode _ (.inr rfl)]
  rfl

/-- One entry is arranged as it is. -/
theorem arrange_singleton (e : Entry) : Entry.arrange [e] = [e] := by
  simp [Entry.arrange, Entry.sort, Entry.dropRepeats, Entry.dropRepeatsFrom]

/-- Without the first node one ordered block is left of the two. -/
theorem rewritten_blockOfNode :
    Block.rewritten 1 [⟨[1]⟩] [blockOfNode .ordered 1, blockOfNode .unordered 2] =
      [blockOfNode .ordered 2] := by
  rw [Block.rewritten, survivors_blockOfNode, Block.merged, arrange_singleton]
  rfl

/-- The index after a first load of two names and an addition to the first of them. -/
def extended : Index :=
  Action.stateOf ((Op.flush anotherNode).run (Action.stateOf ((Op.flush twoNames).run fresh)))

/-- The first load and the addition are a run. -/
theorem run_extended (admits : Op → Prop) (htwo : admits (.flush twoNames))
    (hanother : admits (.flush anotherNode)) :
    Run admits [(.flush twoNames, .ok ()), (.flush anotherNode, .ok ())] extended := by
  have htwoNames : Action.outcomeOf ((Op.flush twoNames).run fresh) = .ok () := rfl
  have hanotherNode : Action.outcomeOf ((Op.flush anotherNode).run
      (Action.stateOf ((Op.flush twoNames).run fresh))) = .ok () := rfl
  exact .call_of_outcome (.call_of_outcome (i := fresh) (.start rfl) htwo fits_twoNames htwoNames)
    hanother fits_anotherNode hanotherNode

/-- Under the name the two blocks stand one behind the other. -/
theorem value?_extended : extended.store.value? (Key.verbatim 7 "id").toBytes =
    some (Block.valueOf [blockOfNode .ordered 1, blockOfNode .unordered 2]) := by
  rw [← valueOf_blockOfNode]
  rfl

/-- What the removal leaves fits into a block. -/
theorem removalFits_extended :
    extended.RemovalFits oneNode.document { localName := "id", kind := .attrId } [⟨[1]⟩] := by
  intro k t value hof hvalue
  obtain ⟨rfl, _⟩ := EStateM.Result.ok.inj hof
  obtain rfl := Option.some.inj (value?_extended.symm.trans hvalue)
  have hdoc : oneNode.document.id = 1 := rfl
  rw [scan_blockOfNode, hdoc, survivors_blockOfNode, arrange_singleton]
  exact (fitBlock_one (.inr rfl)).2

/-- After the removal of the first node one ordered block is left under the name. -/
theorem blocksOf_extended_of_removeNodes {i' : Index}
    (h : removeNodes oneNode.document { localName := "id", kind := .attrId } [⟨[1]⟩] extended =
      .ok () i') :
    blocksOf (i'.store.value? (Key.verbatim 7 "id").toBytes) = [blockOfNode .ordered 2] := by
  have hs := (run_extended (fun _ => True) trivial trivial).intact
  obtain ⟨_, bs, hof, hbs, hvalue, hlength, hstore⟩ := removeNodes_blocks hs removalFits_extended h
  obtain ⟨rfl, _⟩ := EStateM.Result.ok.inj hof
  have hafter : i'.store.value? (Key.verbatim 7 "id").toBytes =
      some (Block.valueOf (Block.rewritten 1 [⟨[1]⟩] bs)) := (hstore _).trans (if_pos rfl)
  change (extended.store.value? (Key.verbatim 7 "id").toBytes).getD [] = _ at hvalue
  rw [value?_extended] at hvalue
  -- The blocks that were rewritten are the two that were found there.
  have htwo : [blockOfNode .ordered 1, blockOfNode .unordered 2] = bs :=
    (congrArg Framing.blocks scan_blockOfNode).symm.trans (blocksOf_of_getD hbs hvalue)
  subst htwo
  rw [hafter, blocksOf_of_getD (hbs.rewritten hlength) rfl]
  exact rewritten_blockOfNode

/-- What the first load and the addition have written can be read, and so can the one block that a
removal makes of it; a census and the statistics succeed. -/
theorem stored_values_extended :
    (∃ value, extended.store.value? (Key.verbatim 7 "id").toBytes = some value ∧
      Readable extended.symbols (Key.verbatim 7 "id").toBytes value) ∧
    (∃ i', removeNodes oneNode.document { localName := "id", kind := .attrId } [⟨[1]⟩] extended =
        .ok () i' ∧
      WritesAscending extended i' ∧
      blocksOf (i'.store.value? (Key.verbatim 7 "id").toBytes) = [blockOfNode .ordered 2] ∧
      Ascending (blockOfNode .ordered 2)) ∧
    (∃ counts, census [7] extended = .ok counts extended) ∧
    ∃ size, statistics 7 extended = .ok size extended := by
  have hrun := run_extended (fun _ => True) trivial trivial
  obtain ⟨hvalues, hwrites, hascending, hreports⟩ := hrun.stored_values
  obtain ⟨hcensus, hstatistics⟩ := hreports rfl rfl
  refine ⟨⟨_, value?_extended, hvalues _ _ value?_extended⟩, ?_, hcensus [7], hstatistics 7⟩
  -- Nothing stands in the way of the removal, and it rewrites the two blocks.
  obtain ⟨i', hremove, _⟩ : ∃ i', removeNodes oneNode.document
      { localName := "id", kind := .attrId } [⟨[1]⟩] extended = .ok () i' ∧ i'.store.Open :=
    exists_removeNodes ⟨rfl, rfl, fun _ => rfl⟩ hrun.intact.values [⟨[1]⟩] rfl
  have hwritten := hwrites (.removeNodes oneNode.document _ _) trivial removalFits_extended
  rw [Op.run, hremove] at hwritten
  obtain ⟨_, hof, hblocks⟩ := hascending _ _ _ _ removalFits_extended hremove
  obtain ⟨rfl, _⟩ := EStateM.Result.ok.inj hof
  have hleft := blocksOf_extended_of_removeNodes hremove
  exact ⟨i', hremove, hwritten, hleft, hblocks _ (hleft ▸ List.mem_singleton.mpr rfl) rfl⟩

end Index

end XmlIndex
