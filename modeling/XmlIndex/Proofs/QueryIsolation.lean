import XmlIndex.Index.Join
import XmlIndex.Proofs.ActionAgreement
import XmlIndex.Proofs.QueryVisits

/-! # What a query does not look at

A query passes over the blocks of documents that it was not asked for without looking at their
bodies.  So two stores that differ in such blocks only, in their number, places, order flags,
counts and bodies (`Store.SameWithin`), are told apart by no query
(`Index.report_queries_of_sameWithin`): a document whose body cannot be decoded any more does
not stand in the way of queries on the others.

`Index.agree_visitValues` compares two runs of a query value by value; it asks only that a visit
makes the same of the two values (`Index.SameVisit`). -/

namespace XmlIndex

open XmlIndex.Action

/-! ## Two runs of a query -/

namespace Index

variable {kind : NameKind} {name : QName} {visit : Findings → Block → Except Error Findings}
  {tolerated : Error → Prop} {R : Index → Index → Prop} {i i' : Index}

/-- A visit to the blocks makes the same of both values, or there is none in both places. -/
def SameVisit (visit : Findings → Block → Except Error Findings) :
    Option Bytes → Option Bytes → Prop
  | none, none => True
  | some value, some value' =>
    ∀ f, (Block.scan value).fold visit f = (Block.scan value').fold visit f
  | _, _ => False

/-- If at every step two runs come to values of which the visit makes the same, they agree. -/
theorem agree_visitValues {collections : List CollectionId}
    (hread : ∀ c ∈ collections, ∀ i i', R i i' → Agree tolerated R (SameVisit visit)
      ((keyOf kind c name >>= readValue) i) ((keyOf kind c name >>= readValue) i'))
    (h : R i i') (f : Findings) :
    Agree tolerated R Eq (visitValues kind name visit collections f i)
      (visitValues kind name visit collections f i') := by
  induction collections generalizing i i' f with
  | nil => exact .ok rfl h
  | cons c collections ih =>
    obtain ⟨hc, hcollections⟩ := List.forall_mem_cons.mp hread
    rw [visitValues, ← bind_assoc]
    refine (hc i i' h).bind fun value? value?' j j' hsame hj => ?_
    match value?, value?', hsame with
    | none, none, _ => exact ih hcollections hj _
    | some value, some value', hsame =>
      -- The two values may differ, but the findings go on the same.
      show Agree _ _ _ ((ofExcept _ >>= _) j) ((ofExcept _ >>= _) j')
      rw [← hsame f]
      refine (Agree.ofExcept _ hj).bind fun g g' k k' hg hk => ?_
      subst hg
      exact ih hcollections hk g

/-- A query on runs that agree tells the same. -/
theorem agree_lookup {docs : DocumentSet} {select? : Option Selector}
    (hread : ∀ c ∈ docs.collections, ∀ i i', R i i' →
      Agree tolerated R (SameVisit (Findings.addBlock kind select? docs))
        ((keyOf kind c name >>= readValue) i) ((keyOf kind c name >>= readValue) i'))
    (h : R i i') :
    Agree tolerated R Eq (lookup kind docs name select? i) (lookup kind docs name select? i') := by
  refine (agree_visitValues hread h {}).bind fun f f' j j' hf hj => ?_
  subst hf
  exact .ok rfl hj

/-- Joins agree where what they read is visited to the same effect. -/
theorem agree_join {docs : DocumentSet} {axis : Axis} {context : NodeSet}
    {contextId? : Option UInt32}
    (hread : ∀ c ∈ docs.collections, ∀ i i', R i i' →
      Agree tolerated R (SameVisit (Findings.joinBlock kind axis docs context contextId?))
        ((keyOf kind c name >>= readValue) i) ((keyOf kind c name >>= readValue) i'))
    (h : R i i') :
    Agree tolerated R Eq (join kind axis docs name context contextId? i)
      (join kind axis docs name context contextId? i') := by
  refine (agree_visitValues hread h {}).bind fun f f' j j' hf hj => ?_
  subst hf
  exact .ok rfl hj

end Index

/-! ## Blocks that are passed over -/

namespace Block

/-- The blocks of these documents. -/
def within (docs : DocumentSet) (bs : List Block) : List Block :=
  bs.filter fun b => docs.contains b.doc

/-- A visit that passes over the blocks of other documents makes of some blocks what it makes
of those of its own documents. -/
theorem foldlM_within {docs : DocumentSet} {visit : Findings → Block → Except Error Findings}
    (hpass : ∀ f b, docs.get? b.doc = none → visit f b = .ok f) (bs : List Block)
    (f : Findings) : (within docs bs).foldlM visit f = bs.foldlM visit f := by
  -- Induction on the blocks; one of another document leaves the findings.
  induction bs generalizing f with
  | nil => rfl
  | cons b bs ih =>
    cases hb : docs.get? b.doc with
    | none =>
      have hout : docs.contains b.doc = false := by
        rw [DocumentSet.contains, SortedMap.contains, ← DocumentSet.get?, hb]
        rfl
      rw [within, List.filter_cons_of_neg (by simp [hout]), List.foldlM_cons, hpass f b hb]
      exact ih f
    | some d =>
      have hin : docs.contains b.doc = true := by
        rw [DocumentSet.contains, SortedMap.contains, ← DocumentSet.get?, hb]
        rfl
      rw [within, List.filter_cons_of_pos (by simp [hin]), List.foldlM_cons, List.foldlM_cons]
      exact congrArg _ (funext ih)

end Block

namespace Findings

variable (kind : NameKind) (f : Findings) {docs : DocumentSet} {b : Block}

/-- A lookup passes over the blocks of other documents. -/
theorem addBlock_of_get?_eq_none (select? : Option Selector) (h : docs.get? b.doc = none) :
    addBlock kind select? docs f b = .ok f := by
  rw [addBlock, h]

/-- A join passes over the blocks of other documents. -/
theorem joinBlock_of_get?_eq_none (axis : Axis) (context : NodeSet)
    (contextId? : Option UInt32) (h : docs.get? b.doc = none) :
    joinBlock kind axis docs context contextId? f b = .ok f := by
  rw [joinBlock, h]

end Findings

/-! ## Stores with the same blocks of some documents -/

namespace Store

/-- The stores have the same keys, all their values are well framed, and under every key they
have the same blocks of these documents, one after the other.  The lock can be taken in both or
in neither, and the same failures are planned. -/
structure SameWithin (docs : DocumentSet) (s' s : Store) : Prop where
  free : s'.isFree .read = s.isFree .read
  planned : s'.planned .get = s.planned .get
  keys : ∀ key, (s'.value? key).isSome = (s.value? key).isSome
  framed : ∀ key value, s.value? key = some value → (Block.scan value).fault? = none
  framed' : ∀ key value, s'.value? key = some value → (Block.scan value).fault? = none
  blocks : ∀ key, Block.within docs (Index.blocksOf (s'.value? key)) =
    Block.within docs (Index.blocksOf (s.value? key))

namespace SameWithin

variable {docs : DocumentSet} {s s' : Store}
  {visit : Findings → Block → Except Error Findings}

/-- A visit that passes over other documents makes the same of both values under a key. -/
theorem sameVisit (h : s'.SameWithin docs s)
    (hpass : ∀ f b, docs.get? b.doc = none → visit f b = .ok f) (key : Bytes) :
    Index.SameVisit visit (s.value? key) (s'.value? key) := by
  have hkeys := h.keys key
  have hblocks := h.blocks key
  -- Both stores have a value there, or neither has.
  cases hs : s.value? key with
  | none =>
    rw [hs] at hkeys
    rw [Option.isSome_eq_false_iff.mp hkeys |> Option.isNone_iff_eq_none.mp]
    trivial
  | some value =>
    rw [hs] at hkeys hblocks
    obtain ⟨value', hs'⟩ := Option.isSome_iff_exists.mp hkeys
    rw [hs'] at hblocks ⊢
    intro f
    rw [Framing.fold_of_no_fault (h.framed key value hs),
      Framing.fold_of_no_fault (h.framed' key value' hs'),
      ← Block.foldlM_within hpass (Block.scan value).blocks,
      ← Block.foldlM_within hpass (Block.scan value').blocks]
    exact congrArg (List.foldlM visit f) hblocks.symm

/-- Reading a key takes the same from the planned failures of both stores. -/
theorem agree_get (h : s'.SameWithin docs s) (key : Bytes) :
    Agree (fun _ => False) (fun s s' => s'.SameWithin docs s)
      (fun slot? slot?' => slot? = s.entries.get? key ∧ slot?' = s'.entries.get? key)
      (Store.get key s) (Store.get key s') := by
  -- Both plans come nearer by one, which changes no value.
  have hset : ∀ count, (s'.setPlan .get count).SameWithin docs (s.setPlan .get count) :=
    fun count => ⟨h.free, by simp [setPlan], h.keys, h.framed, h.framed', h.blocks⟩
  have hplanned := h.planned
  change Agree _ _ _ ((enter .get >>= _) s) ((enter .get >>= _) s')
  -- The plans are the same, so the call fails in both or in neither.
  cases hs : s.planned .get with
  | zero =>
    rw [Action.bind_of_ok (enter_of_planned hs),
      Action.bind_of_ok (enter_of_planned (hplanned.trans hs))]
    exact .ok ⟨rfl, rfl⟩ h
  | succ count =>
    have hs' := hplanned.trans hs
    cases count with
    | zero =>
      have he : enter .get s = .error (.injected StoreCall.get.name) (s.setPlan .get 0) := by
        rw [enter, hs]
      have he' : enter .get s' = .error (.injected StoreCall.get.name) (s'.setPlan .get 0) := by
        rw [enter, hs']
      rw [Action.bind_of_error he, Action.bind_of_error he']
      exact .error rfl (hset 0)
    | succ count =>
      have he : enter .get s = .ok () (s.setPlan .get (count + 1)) := by
        rw [enter, hs]
      have he' : enter .get s' = .ok () (s'.setPlan .get (count + 1)) := by
        rw [enter, hs']
      rw [Action.bind_of_ok he, Action.bind_of_ok he']
      exact .ok ⟨rfl, rfl⟩ (hset (count + 1))

end SameWithin

end Store

/-! ## Queries -/

namespace Index

variable {docs : DocumentSet} {i i' : Index} {visit : Findings → Block → Except Error Findings}

/-- The indexes have one symbol table and stores with the same blocks of these documents. -/
def SameWithin (docs : DocumentSet) (i i' : Index) : Prop :=
  i'.symbols = i.symbols ∧ i'.store.SameWithin docs i.store

/-- The values that two such indexes have under a name are read alike, and a visit that passes
over other documents makes the same of them. -/
theorem SameWithin.agree_readValue (h : SameWithin docs i i') (kind : NameKind) (name : QName)
    (hpass : ∀ f b, docs.get? b.doc = none → visit f b = .ok f) (c : CollectionId) :
    Agree (fun _ => False) (SameWithin docs) (SameVisit visit)
      ((keyOf kind c name >>= readValue) i) ((keyOf kind c name >>= readValue) i') := by
  obtain ⟨hsymbols, hstore⟩ := h
  -- The tables are the same, so the name gets the same key.
  have hkey : Agree (fun _ => False) (SameWithin docs) Eq (keyOf kind c name i)
      (keyOf kind c name i') := by
    refine Agree.on (S := Eq) ?_ fun t t' ht => ⟨ht.symm, hstore⟩
    rw [hsymbols]
    exact .refl (fun _ => rfl) _
  refine hkey.bind fun k k' j j' hk hj => ?_
  subst hk
  have hget : Agree (fun _ => False) (SameWithin docs)
      (fun slot? slot?' => slot? = j.store.entries.get? k.toBytes ∧
        slot?' = j'.store.entries.get? k.toBytes)
      (onStore (Store.locked .read (Store.get k.toBytes)) j)
      (onStore (Store.locked .read (Store.get k.toBytes)) j') :=
    Agree.on (Store.agree_locked hj.2.free hj.2 fun _ => hj.2.agree_get k.toBytes)
      fun _ _ hs => ⟨hj.1, hs⟩
  refine hget.bind fun slot? slot?' l l' hslots hl => ?_
  obtain ⟨rfl, rfl⟩ := hslots
  exact .ok (hj.2.sameVisit hpass k.toBytes) hl

/-- Queries tell the same of two indexes with the same blocks of the documents asked for: the
same nodes, or a failure of the same class. -/
theorem report_queries_of_sameWithin (hsymbols : i'.symbols = i.symbols)
    (hstore : i'.store.SameWithin docs i.store) :
    (∀ kind name select?, report (lookup kind docs name select? i) =
      report (lookup kind docs name select? i')) ∧
    ∀ kind axis name context contextId?,
      report (join kind axis docs name context contextId? i) =
        report (join kind axis docs name context contextId? i') := by
  have h : SameWithin docs i i' := ⟨hsymbols, hstore⟩
  -- Both queries pass over the blocks of other documents, which is all that is needed.
  constructor
  · intro kind name select?
    have hpass : ∀ f b, docs.get? b.doc = none →
        Findings.addBlock kind select? docs f b = .ok f :=
      fun f b hb => Findings.addBlock_of_get?_eq_none kind f select? hb
    have hagree := agree_lookup (fun c _ j j' hj => hj.agree_readValue kind name hpass c) h
    exact hagree.report_eq
  · intro kind axis name context contextId?
    have hpass : ∀ f b, docs.get? b.doc = none →
        Findings.joinBlock kind axis docs context contextId? f b = .ok f :=
      fun f b hb => Findings.joinBlock_of_get?_eq_none kind f axis context contextId? hb
    have hagree := agree_join (fun c _ j j' hj => hj.agree_readValue kind name hpass c) h
    exact hagree.report_eq

/-! ## A damaged document -/

/-- An index with these blocks under one name of collection 7, and nothing else. -/
def holding (bs : List Block) : Index where
  store := { name := "nodes", timeout := ⟨100⟩, nextAddress := 2,
             entries := SortedMap.empty.insert (Key.verbatim 7 "id").toBytes ⟨1, Block.valueOf bs⟩ }
  symbols := .empty
  progressStep := 10

/-- The index has one value. -/
theorem value?_holding (bs : List Block) (key : Bytes) : (holding bs).store.value? key =
    if key = (Key.verbatim 7 "id").toBytes then some (Block.valueOf bs) else none := by
  simp only [holding, Store.value?, SortedMap.get?_insert_eq]
  split <;> rfl

/-- Indexes with the same blocks of some documents. -/
theorem sameWithin_holding {bs bs' : List Block} (hbs : ∀ b ∈ bs, b.WellFramed)
    (hbs' : ∀ b ∈ bs', b.WellFramed) (h : Block.within docs bs' = Block.within docs bs) :
    (holding bs').store.SameWithin docs (holding bs).store := by
  -- The values are scanned back into the blocks.
  have hscan := Block.scan_eq_iff.mpr ⟨rfl, hbs⟩
  have hscan' := Block.scan_eq_iff.mpr ⟨rfl, hbs'⟩
  refine ⟨rfl, rfl, fun key => ?_, fun key value hv => ?_, fun key value hv => ?_, fun key => ?_⟩
  · simp only [value?_holding]
    split <;> rfl
  · rw [value?_holding] at hv
    split at hv
    · obtain rfl := Option.some.inj hv
      rw [hscan]
    · cases hv
  · rw [value?_holding] at hv
    split at hv
    · obtain rfl := Option.some.inj hv
      rw [hscan']
    · cases hv
  -- Only the one key has blocks, and there the document's are the same.
  · simp only [value?_holding]
    split
    · simp only [blocksOf, hscan, hscan', h]
    · rfl

/-- A block of document 2 that declares more nodes than its body has bytes. -/
def damagedBlock : Block where
  doc := 2
  order := .ordered
  count := 3
  byteLength := 2
  raw := [2, 0, 3, 2, 0, 0, 0, 255, 255]
  body := [255, 255]

/-- A block of document 1 with one node. -/
def soundBlock : Block := Block.ofEntries 1 .unordered [⟨⟨[1]⟩, ⟨5⟩⟩]

/-- The block of document 1 is well framed. -/
theorem wellFramed_soundBlock : soundBlock.WellFramed := by
  refine Block.wellFramed_ofEntries 1 .unordered ⟨?_, ?_⟩
  · simp [Entry.Storable, NodeId.Valid, UInt32.size]
  · simp [Entry.encodeBody, Entry.encode, NodeId.encode, NodeId.encodeEnd, Varint.encode,
      Varint.encodeNat, UInt32.size]

/-- The damaged block is well framed as well. -/
theorem wellFramed_damagedBlock : damagedBlock.WellFramed :=
  (Block.read_eq_ok (i := .ofBytes damagedBlock.raw) (b := damagedBlock) rfl).1

/-- The damaged block in front of that of document 1 changes no answer for document 1. -/
theorem report_queries_damaged : ∃ docs : DocumentSet, ∃ i i' : Index,
    docs.contains 1 ∧ i = holding [soundBlock] ∧ i' = holding [damagedBlock, soundBlock] ∧
      damagedBlock.entries = .error (.blockOverfull 2 3 2) ∧
      i'.store.SameWithin docs i.store ∧
      ∀ kind name select?,
        report (lookup kind docs name select? i) = report (lookup kind docs name select? i') := by
  -- The damage lies in a block of another document, which only has to be framed.
  have hstore : (holding [damagedBlock, soundBlock]).store.SameWithin
      (.ofList [⟨1, 7, "/db/c7/d1.xml"⟩]) (holding [soundBlock]).store := by
    refine sameWithin_holding ?_ ?_ rfl
    · simp [wellFramed_soundBlock]
    · simp [wellFramed_soundBlock, wellFramed_damagedBlock]
  have hsymbols : (holding [damagedBlock, soundBlock]).symbols = (holding [soundBlock]).symbols :=
    rfl
  have hreport := report_queries_of_sameWithin hsymbols hstore
  exact ⟨_, _, _, rfl, rfl, rfl, rfl, hstore, hreport.1⟩

end Index

end XmlIndex
