import XmlIndex.Index.Lookup
import XmlIndex.Proofs.BlockFraming
import XmlIndex.Proofs.KeyFormation
import XmlIndex.Proofs.NodeSetMerge
import XmlIndex.Proofs.StoreCalls

/-! # What a query visits

A query goes from collection to collection, forms the key of its name there and visits the
blocks of the value under it.  Forming a key may give the name its codes, but it gives it the
same ones in every collection.  So what is visited is known from the index at the beginning
(`Index.storedValue?`): if every key can be formed and the lock is free, a query that fails at
no block succeeds, and its findings are those of a walk through the stored values
(`Index.visitValues_eq_ok`).  Conversely, a query that succeeds has visited every block stored under
its name with success (`Index.exists_visit_of_visitValues`). -/

namespace XmlIndex

namespace Framing

/-- The value has no fault, and its blocks are sound. -/
structure Sound (f : Framing) : Prop where
  no_fault : f.fault? = none
  blocks : ∀ b ∈ f.blocks, b.Sound

/-- Going through a value without a fault is going through its blocks. -/
theorem fold_of_no_fault {β : Type} {f : Framing} (h : f.fault? = none)
    (visit : β → Block → Except Error β) (start : β) :
    f.fold visit start = f.blocks.foldlM visit start := by
  rw [fold, h]
  cases f.blocks.foldlM visit start <;> rfl

/-- A walk through a value succeeds if the value has no fault and no visit fails. -/
theorem fold_eq_ok_iff {β : Type} {f : Framing} {visit : β → Block → Except Error β}
    {start x : β} :
    f.fold visit start = .ok x ↔ f.fault? = none ∧ f.blocks.foldlM visit start = .ok x := by
  rw [fold]
  cases f.blocks.foldlM visit start <;> cases f.fault? <;> simp [bind, Except.bind]

/-- Well-framed blocks make a value without a fault. -/
theorem sound_scan_valueOf {bs : List Block} (h : ∀ b ∈ bs, b.WellFramed ∧ b.Sound) :
    (Block.scan (Block.valueOf bs)).Sound := by
  have hscan := Block.scan_eq_iff.mpr ⟨rfl, fun b hb => (h b hb).1⟩
  rw [hscan]
  exact ⟨rfl, fun b hb => (h b hb).2⟩

/-- A walk in which no visit fails. -/
theorem foldlM_eq_ok {β : Type} {visit : β → Block → Except Error β} {go : β → Block → β}
    {bs : List Block} (h : ∀ b ∈ bs, ∀ x, visit x b = .ok (go x b)) (start : β) :
    bs.foldlM visit start = .ok (bs.foldl go start) := by
  induction bs generalizing start with
  | nil => rfl
  | cons b bs ih =>
    obtain ⟨hb, hbs⟩ := List.forall_mem_cons.mp h
    rw [List.foldlM_cons, hb, List.foldl_cons, ← ih hbs]
    rfl

/-- A walk that succeeds has visited every block with success. -/
theorem exists_visit_of_foldlM {β : Type} {visit : β → Block → Except Error β} {bs : List Block}
    {start x : β} (h : bs.foldlM visit start = .ok x) : ∀ b ∈ bs, ∃ y z, visit y b = .ok z := by
  -- Induction on the blocks; the first failure would have been the end.
  induction bs generalizing start with
  | nil => exact fun _ hb => absurd hb List.not_mem_nil
  | cons b bs ih =>
    rw [List.foldlM_cons] at h
    cases hvisit : visit start b with
    | error e =>
      rw [hvisit] at h
      cases h
    | ok y =>
      rw [hvisit] at h
      exact List.forall_mem_cons.mpr ⟨⟨start, y, hvisit⟩, ih h⟩

end Framing

/-- All values of the store are sequences of sound blocks. -/
def Store.Sound (s : Store) : Prop :=
  ∀ key value, s.value? key = some value → (Block.scan value).Sound

/-! ## The documents of a query -/

namespace DocumentSet

/-- Documents are found under their ids. -/
theorem id_of_get?_foldl_add {ds : List Document} {s : DocumentSet}
    (hs : ∀ id d, s.get? id = some d → d.id = id) {id : DocId} {d : Document}
    (h : (ds.foldl add s).get? id = some d) : d.id = id := by
  induction ds generalizing s with
  | nil => exact hs id d h
  | cons d' ds ih =>
    refine ih (fun id' d'' h' => ?_) h
    simp only [add, get?, SortedMap.get?_insert_eq] at h'
    -- The document was entered just now, under its own number, or before.
    split at h'
    · next he => rw [← Option.some.inj h', he]
    · exact hs id' d'' h'

/-- A document stands under its own number. -/
theorem id_of_get?_ofList {ds : List Document} {id : DocId} {d : Document}
    (h : (ofList ds).get? id = some d) : d.id = id :=
  id_of_get?_foldl_add (s := empty) (fun id _ h => by
    rw [get?, empty, SortedMap.get?_empty] at h
    cases h) h

/-- A document's collection is among those of the set. -/
theorem mem_collections_of_get? {s : DocumentSet} {id : DocId} {d : Document}
    (h : s.get? id = some d) : d.collection ∈ s.collections := by
  refine SortedMap.mem_keys_ofList.mpr ⟨(d.collection, ()), ?_, rfl⟩
  exact List.mem_map.mpr ⟨d, SortedMap.mem_values_iff.mpr ⟨id, h⟩, rfl⟩

/-- In a set of one document no other is found. -/
theorem eq_of_get?_singleton {d d' : Document} {id : DocId}
    (h : (ofList [d]).get? id = some d') : d' = d := by
  have hget := SortedMap.get?_insert_eq (.empty : SortedMap DocId Document) d.id id d
  rw [show (ofList [d]).get? id = _ from hget] at h
  split at h
  · exact (Option.some.inj h).symm
  · cases h

/-- No collection is visited twice. -/
theorem nodup_collections (s : DocumentSet) : s.collections.Nodup :=
  SortedMap.nodup_keys _

end DocumentSet

namespace Index

variable {i i' : Index} {kind : NameKind} {collection : CollectionId} {name : QName} {k : Key}

/-! ## Keys of a query -/

/-- Forming a key changes nothing but the codes. -/
theorem keyOf_eq_ok_iff : keyOf kind collection name i = .ok k i' ↔
    ∃ t, Key.ofName kind collection name i.symbols = .ok k t ∧ { i with symbols := t } = i' :=
  Action.on_eq_ok_iff

/-- The key of a name, if it can be formed. -/
def key? (i : Index) (kind : NameKind) (collection : CollectionId) (name : QName) : Option Key :=
  match Key.ofName kind collection name i.symbols with
  | .ok k _ => some k
  | .error _ _ => none

/-- The value stored under a name. -/
def storedValue? (i : Index) (kind : NameKind) (collection : CollectionId) (name : QName) :
    Option Bytes :=
  (i.key? kind collection name).bind fun k => i.store.value? k.toBytes

/-- The blocks of a value, if there is one. -/
def blocksOf (value? : Option Bytes) : List Block :=
  match value? with
  | none => []
  | some value => (Block.scan value).blocks

/-- No value is an empty one, as far as blocks are concerned. -/
theorem blocksOf_of_scan_eq {value? : Option Bytes} {bs : List Block}
    (h : Block.scan (value?.getD []) = ⟨bs, none⟩) : blocksOf value? = bs := by
  cases value? with
  | none =>
    have hnil : Block.scan [] = ⟨[], none⟩ := Block.scanFrom_of_left_eq_zero rfl
    exact congrArg Framing.blocks (hnil.symm.trans h)
  | some value => exact congrArg Framing.blocks h

end Index

namespace Store

/-- All values are made of blocks. -/
def Framed (s : Store) : Prop :=
  ∀ key, Block.scan ((s.value? key).getD []) = ⟨Index.blocksOf (s.value? key), none⟩

/-- All values are made of blocks that can be decoded. -/
structure Decodable (s : Store) : Prop where
  framed : s.Framed
  decodes : ∀ key, ∀ b ∈ Index.blocksOf (s.value? key), b.entries = .ok b.content

end Store

namespace Index

variable {i i' : Index} {kind : NameKind} {collection : CollectionId} {name : QName} {k : Key}

/-- The blocks stored under a name. -/
def storedBlocks (i : Index) (kind : NameKind) (collection : CollectionId) (name : QName) :
    List Block :=
  blocksOf (i.storedValue? kind collection name)

/-- A stored block is one of the stored value. -/
theorem mem_storedBlocks {b : Block} : b ∈ i.storedBlocks kind collection name ↔
    ∃ value, i.storedValue? kind collection name = some value ∧ b ∈ (Block.scan value).blocks := by
  rw [storedBlocks]
  cases i.storedValue? kind collection name <;> simp [blocksOf]

/-- What is stored under a name is the value of a key. -/
theorem exists_value?_of_storedValue? {value : Bytes}
    (h : i.storedValue? kind collection name = some value) :
    ∃ k : Key, i.store.value? k.toBytes = some value := by
  obtain ⟨k, _, hvalue⟩ := Option.bind_eq_some_iff.mp h
  exact ⟨k, hvalue⟩

/-- The entries of a document stored under a name, block by block. -/
def storedEntries (i : Index) (kind : NameKind) (document : Document) (name : QName) :
    List Entry :=
  ((i.storedBlocks kind document.collection name).filter (·.doc == document.id)).flatMap
    (·.content)

/-- A name gets the same codes in every collection. -/
theorem ofName_of_collection {t t' : SymbolTable}
    (h : Key.ofName kind collection name t = .ok k t') (collection' : CollectionId) :
    Key.ofName kind collection' name t = .ok { k with collection := collection' } t' := by
  -- The collection has no part in the codes, if the key has any.
  by_cases hk : kind = .attrId
  · subst hk
    obtain ⟨rfl, rfl⟩ := EStateM.Result.ok.inj h
    rfl
  · rw [Key.ofName_of_ne_attrId hk] at h ⊢
    obtain ⟨symbol, t₁, hs, h⟩ := Action.bind_eq_ok_iff.mp h
    obtain ⟨ns, t₂, hns, h⟩ := Action.bind_eq_ok_iff.mp h
    obtain ⟨rfl, rfl⟩ := EStateM.Result.ok.inj h
    refine Action.bind_eq_ok_iff.mpr ⟨symbol, t₁, hs, ?_⟩
    exact Action.bind_eq_ok_iff.mpr ⟨ns, t₂, hns, rfl⟩

/-- A key there is can be formed. -/
theorem ofName_of_key? (h : i.key? kind collection name = some k) :
    ∃ t, Key.ofName kind collection name i.symbols = .ok k t := by
  rw [key?] at h
  split at h
  · next hof =>
    obtain rfl := Option.some.inj h
    exact ⟨_, hof⟩
  · cases h

/-- With its codes given, a name keeps its keys. -/
theorem key?_of_ofName {t : SymbolTable}
    (h : Key.ofName kind collection name i.symbols = .ok k t) (collection' : CollectionId) :
    ({ i with symbols := t } : Index).key? kind collection' name =
      i.key? kind collection' name := by
  have hlookup := Key.lookup?_of_collection (Key.ofName_eq_ok h).1 collection'
  rw [key?, key?, ofName_of_collection h, Key.ofName_of_lookup? hlookup]

/-! ## Visits -/

/-- With the lock free the value under a key is read. -/
theorem readValue_of_isFree (hfree : i.store.isFree .read) (hget : i.store.planned .get = 0)
    (k : Key) : readValue k i = .ok (i.store.value? k.toBytes) i := by
  refine Action.bind_eq_ok_iff.mpr ⟨i.store.entries.get? k.toBytes, i, ?_, rfl⟩
  refine Action.on_eq_ok_iff.mpr ⟨i.store, ?_, rfl⟩
  rw [Store.locked_of_isFree hfree, Store.get_of_planned hget]

/-- What is read is the value under the key, and the index stays as it was, up to the failures
planned for the store. -/
theorem readValue_eq_ok {value? : Option Bytes} (h : readValue k i = .ok value? i') :
    value? = i.store.value? k.toBytes ∧ i'.symbols = i.symbols ∧
      i'.store.SameUpToPlan i.store := by
  obtain ⟨slot?, i₁, hget, hdone⟩ := Action.bind_eq_ok_iff.mp h
  obtain ⟨rfl, rfl⟩ := EStateM.Result.ok.inj hdone
  obtain ⟨s, hlocked, rfl⟩ := Action.on_eq_ok_iff.mp hget
  obtain ⟨rfl, hsame⟩ := Store.get_eq_ok (Store.locked_eq_ok hlocked).2
  exact ⟨rfl, rfl, hsame⟩

/-- The findings of a walk through values that takes every block by `go`. -/
def visited (go : Findings → Block → Findings) : List (Option Bytes) → Findings → Findings
  | [], f => f
  | none :: values, f => visited go values { f with complete := false }
  | some value :: values, f => visited go values ((Block.scan value).blocks.foldl go f)

variable {visit : Findings → Block → Except Error Findings} {go : Findings → Block → Findings}

/-- The value has no fault, and no visit to its blocks fails. -/
def Visitable (visit : Findings → Block → Except Error Findings)
    (go : Findings → Block → Findings) (value : Bytes) : Prop :=
  (Block.scan value).fault? = none ∧
    ∀ b ∈ (Block.scan value).blocks, ∀ f, visit f b = .ok (go f b)

/-- A query that fails at no block visits the values stored under its name. -/
theorem visitValues_eq_ok {collections : List CollectionId} (hfree : i.store.isFree .read)
    (hget : i.store.planned .get = 0)
    (hkeys : ∀ c ∈ collections, (i.key? kind c name).isSome)
    (hvalues : ∀ c ∈ collections, ∀ value, i.storedValue? kind c name = some value →
      Visitable visit go value) (f : Findings) :
    ∃ i', visitValues kind name visit collections f i =
        .ok (visited go (collections.map (i.storedValue? kind · name)) f) i' ∧
      i'.store = i.store := by
  -- Induction on the collections: the query goes on with the codes it has given.
  induction collections generalizing i f with
  | nil => exact ⟨i, rfl, rfl⟩
  | cons c collections ih =>
    obtain ⟨hkey, hkeys⟩ := List.forall_mem_cons.mp hkeys
    obtain ⟨hvisit, hvalues⟩ := List.forall_mem_cons.mp hvalues
    obtain ⟨k, hkey?⟩ := Option.isSome_iff_exists.mp hkey
    have hvalue : i.storedValue? kind c name = i.store.value? k.toBytes := by
      rw [storedValue?, hkey?]
      rfl
    obtain ⟨t, hof⟩ := ofName_of_key? hkey?
    -- The codes given to the name change no key of it.
    have hsame : ∀ c', ({ i with symbols := t } : Index).storedValue? kind c' name =
        i.storedValue? kind c' name := fun c' => by
      rw [storedValue?, storedValue?, key?_of_ofName hof]
    have hrest : ∀ f, ∃ i', visitValues kind name visit collections f { i with symbols := t } =
          .ok (visited go (collections.map (i.storedValue? kind · name)) f) i' ∧
        i'.store = i.store := fun f => by
      have hvisits := ih (i := { i with symbols := t }) hfree hget
        (fun c' hc' => by
          rw [key?_of_ofName hof]
          exact hkeys c' hc')
        (fun c' hc' value hv => hvalues c' hc' value (hsame c' ▸ hv)) f
      simpa only [hsame] using hvisits
    -- The value of this collection can be read.
    have hread := readValue_of_isFree (i := { i with symbols := t }) hfree hget k
    rw [List.map_cons, hvalue]
    cases hv : i.store.value? k.toBytes with
    | none =>
      rw [hv] at hread
      obtain ⟨i', hi', hstore⟩ := hrest { f with complete := false }
      refine ⟨i', ?_, hstore⟩
      refine Action.bind_eq_ok_iff.mpr ⟨k, _, keyOf_eq_ok_iff.mpr ⟨t, hof, rfl⟩, ?_⟩
      exact Action.bind_eq_ok_iff.mpr ⟨none, _, hread, hi'⟩
    | some value =>
      rw [hv] at hread
      obtain ⟨hfault, hblocks⟩ := hvisit value (hvalue.trans hv)
      obtain ⟨i', hi', hstore⟩ := hrest ((Block.scan value).blocks.foldl go f)
      refine ⟨i', ?_, hstore⟩
      refine Action.bind_eq_ok_iff.mpr ⟨k, _, keyOf_eq_ok_iff.mpr ⟨t, hof, rfl⟩, ?_⟩
      refine Action.bind_eq_ok_iff.mpr ⟨some value, _, hread, ?_⟩
      refine Action.bind_eq_ok_iff.mpr ⟨_, _, Action.ofExcept_eq_ok_iff.mpr ⟨?_, rfl⟩, hi'⟩
      rw [Framing.fold_of_no_fault hfault, Framing.foldlM_eq_ok hblocks]

/-- The findings after a visit; one that fails leaves them as they are. -/
def afterVisit (visit : Findings → Block → Except Error Findings) (f : Findings) (b : Block) :
    Findings :=
  match visit f b with
  | .ok f' => f'
  | .error _ => f

/-- A value without a fault can be visited if each of its blocks can. -/
theorem visitable_afterVisit {value : Bytes} (hfault : (Block.scan value).fault? = none)
    (h : ∀ b ∈ (Block.scan value).blocks, ∀ f, ∃ f', visit f b = .ok f') :
    Visitable visit (afterVisit visit) value := by
  refine ⟨hfault, fun b hb f => ?_⟩
  obtain ⟨f', hf'⟩ := h b hb f
  rw [afterVisit, hf']

/-- A query that meets no fault, and fails at no block, succeeds. -/
theorem exists_visitValues {collections : List CollectionId}
    (visit : Findings → Block → Except Error Findings) (hfree : i.store.isFree .read)
    (hget : i.store.planned .get = 0)
    (hkeys : ∀ c ∈ collections, (i.key? kind c name).isSome)
    (hvalues : ∀ c ∈ collections, ∀ value, i.storedValue? kind c name = some value →
      (Block.scan value).fault? = none)
    (hblocks : ∀ c ∈ collections, ∀ b ∈ i.storedBlocks kind c name, ∀ g, ∃ g', visit g b = .ok g')
    (f : Findings) :
    ∃ f' i', visitValues kind name visit collections f i = .ok f' i' := by
  -- A value can be visited if none of its blocks makes the visit fail.
  have hvisitable : ∀ c ∈ collections, ∀ value, i.storedValue? kind c name = some value →
      Visitable visit (afterVisit visit) value := fun c hc value hv =>
    visitable_afterVisit (hvalues c hc value hv) fun b hb =>
      hblocks c hc b (mem_storedBlocks.mpr ⟨value, hv, hb⟩)
  obtain ⟨i', hvisits, _⟩ := visitValues_eq_ok hfree hget hkeys hvisitable f
  exact ⟨_, i', hvisits⟩

/-- A query that succeeds has visited every block stored under its name, with success. -/
theorem exists_visit_of_visitValues {collections : List CollectionId} {f f' : Findings}
    (h : visitValues kind name visit collections f i = .ok f' i') :
    ∀ c ∈ collections, ∀ b ∈ i.storedBlocks kind c name, ∃ g g', visit g b = .ok g' := by
  -- Induction on the collections: neither keys nor values change on the way.
  induction collections generalizing i f with
  | nil => exact fun _ hc => absurd hc List.not_mem_nil
  | cons c collections ih =>
    obtain ⟨k, i₁, hkey, h⟩ := Action.bind_eq_ok_iff.mp h
    obtain ⟨t, hof, rfl⟩ := keyOf_eq_ok_iff.mp hkey
    obtain ⟨value?, i₂, hread, h⟩ := Action.bind_eq_ok_iff.mp h
    obtain ⟨rfl, hsymbols, hstore⟩ := readValue_eq_ok hread
    have hkey? : i.key? kind c name = some k := by rw [key?, hof]
    have hvalue : i.storedValue? kind c name = i.store.value? k.toBytes := by
      rw [storedValue?, hkey?]
      rfl
    -- The code that was given is the one the name keeps.
    have hsame : ∀ c', i₂.storedBlocks kind c' name = i.storedBlocks kind c' name := fun c' => by
      have hkeys := key?_of_ofName hof c'
      rw [key?] at hkeys
      rw [storedBlocks, storedValue?, key?, hsymbols, hkeys, storedBlocks, storedValue?]
      simp only [hstore.value?]
    have hrest : ∀ {g}, visitValues kind name visit collections g i₂ = .ok f' i' →
        ∀ c ∈ collections, ∀ b ∈ i.storedBlocks kind c name, ∃ g g', visit g b = .ok g' :=
      fun hg c' hc' b hb => ih hg c' hc' b (hsame c' ▸ hb)
    cases hv : i.store.value? k.toBytes with
    | none =>
      have hv' : ({ i with symbols := t } : Index).store.value? k.toBytes = none := hv
      rw [hv'] at h
      refine List.forall_mem_cons.mpr ⟨fun b hb => ?_, hrest h⟩
      rw [storedBlocks, hvalue, hv] at hb
      cases hb
    | some value =>
      have hv' : ({ i with symbols := t } : Index).store.value? k.toBytes = some value := hv
      rw [hv'] at h
      obtain ⟨g, i₃, hfold, hvisits⟩ := Action.bind_eq_ok_iff.mp h
      obtain ⟨hwalk, rfl⟩ := Action.ofExcept_eq_ok_iff.mp hfold
      refine List.forall_mem_cons.mpr ⟨fun b hb => ?_, hrest hvisits⟩
      rw [storedBlocks, hvalue, hv] at hb
      exact Framing.exists_visit_of_foldlM (Framing.fold_eq_ok_iff.mp hwalk).2 b hb

/-! ## What was found -/

/-- If every block adds its own references, a walk adds those of all blocks. -/
theorem nodes_visited {doc : DocId} {refs : Block → List NodeRef}
    (hgo : ∀ f b, (go f b).nodes.nodes doc = f.nodes.nodes doc ++ refs b)
    (values : List (Option Bytes)) (f : Findings) :
    (visited go values f).nodes.nodes doc =
      f.nodes.nodes doc ++ (values.flatMap blocksOf).flatMap refs := by
  induction values generalizing f with
  | nil => simp [visited]
  | cons v values ih =>
    cases v with
    | none => rw [visited, ih]; rfl
    | some value =>
      -- The blocks of one value, one after the other.
      have hblocks : ∀ (bs : List Block) (f : Findings),
          (bs.foldl go f).nodes.nodes doc = f.nodes.nodes doc ++ bs.flatMap refs := by
        intro bs
        induction bs with
        | nil => simp
        | cons b bs ih =>
          intro f
          rw [List.foldl_cons, ih, hgo, List.flatMap_cons, List.append_assoc]
      rw [visited, ih, hblocks, List.flatMap_cons, List.flatMap_append, List.append_assoc]
      rfl

/-- Findings that are built stay so through a walk. -/
theorem built_visited (hgo : ∀ f b, f.nodes.Built → (go f b).nodes.Built)
    (values : List (Option Bytes)) {f : Findings} (hf : f.nodes.Built) :
    (visited go values f).nodes.Built := by
  -- Induction on the values, and in each on its blocks.
  induction values generalizing f with
  | nil => exact hf
  | cons v values ih =>
    cases v with
    | none => exact ih hf
    | some value =>
      refine ih ?_
      generalize (Block.scan value).blocks = bs
      induction bs generalizing f with
      | nil => exact hf
      | cons b bs ihb => exact ihb (hgo f b hf)

end Index

end XmlIndex
