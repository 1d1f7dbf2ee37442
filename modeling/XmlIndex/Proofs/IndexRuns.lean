import XmlIndex.Proofs.DropSteps
import XmlIndex.Proofs.FlushResume
import XmlIndex.Proofs.RemovalSteps

/-! # Runs of the index

A run starts with an empty store and goes on with calls that change the index, successful or
not (`Index.Run`).  Between the calls others may do to the lock, to the write protection and to
the planned failures what they like, and names may get codes.  What is asked of a call is that
the blocks it writes keep to the limits of the format (`Index.Op.Fits`).  What a call has
done, failed or not, is `Index.Op.Does`, and the step lemmas go by its cases.

Every run keeps the store intact: its values are made of intact blocks, and its keys are those
of names whose codes are in the symbol table (`Index.Run.intact`). -/

namespace XmlIndex

/-! ## Limits -/

namespace Entry

/-- Whether entries fit into a block does not depend on their order. -/
theorem FitBlock.perm {es es' : List Entry} (h : FitBlock es) (hp : es'.Perm es) :
    FitBlock es' := by
  refine ⟨fun e he => h.1 e (hp.mem_iff.mp he), ?_⟩
  have hlength := (hp.flatMap_right encode).length_eq
  have hbody := h.2
  rw [encodeBody, List.length_append] at hbody ⊢
  omega

end Entry

namespace NodeRef

/-- The entries nodes are written as. -/
def entries (nodes : List NodeRef) : List Entry := (sort nodes).map toEntry

/-- All nodes are written, in some order. -/
theorem perm_entries (nodes : List NodeRef) : (entries nodes).Perm (nodes.map toEntry) :=
  (perm_sort nodes).map toEntry

/-- The nodes are written in ascending order. -/
theorem pairwise_entries (nodes : List NodeRef) :
    (entries nodes).Pairwise fun a b => a.node ≤ b.node :=
  List.pairwise_map.mpr (pairwise_mergeSort NodeRef.node nodes)

/-- Of the nodes with one id the first is found. -/
theorem find?_entries (nodes : List NodeRef) (n : NodeId) :
    (entries nodes).find? (·.node == n) = (nodes.map toEntry).find? (·.node == n) := by
  have hfilter := filter_mergeSort NodeRef.node nodes n
  rw [entries, List.find?_map, List.find?_map, ← List.head?_filter, ← List.head?_filter]
  exact congrArg (fun l => (List.head? l).map toEntry) hfilter

end NodeRef

/-- Every name of the batch has nodes, and they fit into one block. -/
def Batch.Fits (b : Batch) : Prop :=
  ∀ q nodes, b.nodes? q = some nodes →
    nodes ≠ [] ∧ Entry.FitBlock (nodes.map NodeRef.toEntry)

/-- A batch fits at the beginning, and goes on to do so as long as the nodes of the name that
one is registered under fit into one block. -/
theorem Batch.fits_of_pending {b : Batch} (h : b.pending = .empty) : b.Fits := by
  intro q nodes hn
  rw [nodes?, h, SortedMap.get?_empty] at hn
  cases hn

/-- A batch goes on to fit if the nodes of a name are exchanged for others that fit. -/
theorem Batch.Fits.restore {b : Batch} {name : QName} {nodes : List NodeRef} (hb : b.Fits)
    (hne : nodes ≠ []) (hfit : Entry.FitBlock (nodes.map NodeRef.toEntry)) :
    (b.restore name nodes).Fits := by
  intro q nodes' hn
  rw [nodes?_restore] at hn
  split at hn
  · obtain rfl := Option.some.inj hn
    exact ⟨hne, hfit⟩
  · exact hb q nodes' hn

/-- A batch goes on to fit with one node more, if the name still fits into one block. -/
theorem Batch.Fits.register {b b' : Batch} {name : QName} {node : NodeRef} (hb : b.Fits)
    (h : b.register name node = .ok b')
    (hfit : Entry.FitBlock ((((b.nodes? name).getD []) ++ [node]).map NodeRef.toEntry)) :
    b'.Fits := by
  rw [Batch.register] at h
  split at h
  · cases h
  · obtain rfl := Except.ok.inj h
    exact hb.restore (by simp) hfit

namespace Index

/-- What a removal would leave of the document fits into one block. -/
def RemovalFits (i : Index) (document : Document) (name : QName) (removed : List NodeId) : Prop :=
  ∀ k t value, Key.ofName name.kind document.collection name i.symbols = .ok k t →
    i.store.value? k.toBytes = some value →
    (Entry.encodeBody (Entry.arrange
      (Block.survivors document.id removed (Block.scan value).blocks))).length < UInt32.size

/-- The same for the names of a batch, as they are removed one after the other. -/
def RemovalsFit (b : Batch) : List QName → Index → Prop
  | [], _ => True
  | q :: names, i => ∀ nodes, b.nodes? q = some nodes →
      RemovalFits i b.document q (nodes.map (·.node)) ∧
      ∀ i', removeNodes b.document q (nodes.map (·.node)) i = .ok () i' → RemovalsFit b names i'

/-- If all names are removed within the limits, so are those in front. -/
theorem RemovalsFit.front {b : Batch} {names waiting : List QName} {i : Index}
    (h : RemovalsFit b (names ++ waiting) i) : RemovalsFit b names i := by
  induction names generalizing i with
  | nil => trivial
  | cons q names ih =>
    intro nodes hknown
    obtain ⟨hfirst, hrest⟩ := h nodes hknown
    exact ⟨hfirst, fun i' hremoved => ih (hrest i' hremoved)⟩

/-! ## Calls -/

/-- A call that changes the index. -/
inductive Op where
  | flush (batch : Batch)
  | removeNodes (document : Document) (name : QName) (removed : List NodeId)
  | removeBatch (batch : Batch)
  | dropDocument (document : Document) (stop : Nat → Bool)
  | dropCollection (collection : CollectionId)

namespace Op

/-- A result without the answer, and of the state only the index. -/
def outline {σ α : Type} (index : σ → Index) :
    EStateM.Result Error σ α → EStateM.Result Error Index Unit
  | .ok _ s => .ok () (index s)
  | .error e s => .error e (index s)

/-- What a call does to the index. -/
def run (op : Op) (i : Index) : EStateM.Result Error Index Unit :=
  match op with
  | flush batch => outline (·.index) (Index.flush (flushing i batch))
  | removeNodes document name removed => Index.removeNodes document name removed i
  | removeBatch batch => outline (·.1) (Index.removeBatch (i, batch))
  | dropDocument document stop => outline id (Index.dropDocument document stop i)
  | dropCollection collection => outline id (Index.dropCollection collection i)

/-- The blocks that a call writes keep to the limits of the format. -/
def Fits (i : Index) : Op → Prop
  | flush batch => batch.Fits
  | removeNodes document name removed => RemovalFits i document name removed
  | removeBatch batch => RemovalsFit batch batch.names i
  | dropDocument _ _ => True
  | dropCollection _ => True

end Op

/-- A run: the calls that `admits` allows, each with its outcome, and the index at the end. -/
inductive Run (admits : Op → Prop) : List (Op × Except Error Unit) → Index → Prop
  | start {i : Index} (empty : i.store.entries = .empty) : Run admits [] i
  | call {calls : List (Op × Except Error Unit)} {i : Index} {op : Op}
      (before : Run admits calls i) (admitted : admits op) (fits : op.Fits i) :
      Run admits (calls ++ [(op, Action.outcomeOf (op.run i))]) (Action.stateOf (op.run i))
  | others {calls : List (Op × Except Error Unit)} {i : Index} {s : Store} {t : SymbolTable}
      (before : Run admits calls i) (same : s.SameContents i.store)
      (grown : t.Extends i.symbols) :
      Run admits calls { i with store := s, symbols := t }

end Index

/-! ## What a call does -/

namespace Index

/-- What a call does to a store of intact values, by its outcome. -/
inductive Op.Does : Op → Index → Except Error Unit → Index → Prop
  | flushed {b : Batch} {i i' : Index} {s : Store}
      (commits : b.Commits b.names i.symbols i.store i'.symbols s)
      (same : i'.store.SameContents s) : Does (.flush b) i (.ok ()) i'
  | flushStopped {b : Batch} {i : Index} {f : Flushing} {committed waiting : List QName}
      {name : QName} {t : SymbolTable} {s : Store} {e : Error}
      (interrupted : Interrupted b b.names i.symbols i.store f committed name waiting t s) :
      Does (.flush b) i (.error e) f.index
  | removed {document : Document} {name : QName} {nodes : List NodeId} {i i' : Index}
      (h : Index.removeNodes document name nodes i = .ok () i') :
      Does (.removeNodes document name nodes) i (.ok ()) i'
  | removeFailed {document : Document} {name : QName} {nodes : List NodeId} {i i' : Index}
      {e : Error} (h : Index.removeNodes document name nodes i = .error e i') :
      Does (.removeNodes document name nodes) i (.error e) i'
  | batchRemoved {b : Batch} {i i' : Index} (removals : Removals b b.names i i') :
      Does (.removeBatch b) i (.ok ()) i'
  | batchStopped {b : Batch} {i i₁ i' : Index} {done waiting : List QName} {name : QName}
      {nodes : List NodeRef} {e : Error} (names : b.names = done ++ name :: waiting)
      (removals : Removals b done i i₁) (known : b.nodes? name = some nodes)
      (failed : Index.removeNodes b.document name (nodes.map (·.node)) i₁ = .error e i') :
      Does (.removeBatch b) i (.error e) i'
  | dropped {document : Document} {stop : Nat → Bool} {i i' : Index}
      (symbols : i'.symbols = i.symbols)
      (changed : Store.ChangedAt (cutOut document)
        (KeysOf NameKind.all document.collection) i.store i'.store) :
      Does (.dropDocument document stop) i (.ok ()) i'
  | dropStopped {document : Document} {stop : Nat → Bool} {i i' : Index} {e : Error}
      {done : Bytes → Prop} (symbols : i'.symbols = i.symbols)
      (within : ∀ key, (i.store.value? key).isSome → done key →
        KeysOf NameKind.all document.collection key)
      (changed : Store.ChangedAt (cutOut document) done i.store i'.store) :
      Does (.dropDocument document stop) i (.error e) i'
  | cleared {collection : CollectionId} {i i' : Index} (symbols : i'.symbols = i.symbols)
      (changed : Store.ChangedAt (fun _ => none)
        (KeysOf NameKind.all collection) i.store i'.store) :
      Does (.dropCollection collection) i (.ok ()) i'
  | clearStopped {collection : CollectionId} {i i' : Index} {e : Error}
      {dropped waiting : List NameKind} {kind : NameKind}
      (kinds : NameKind.all = dropped ++ kind :: waiting) (symbols : i'.symbols = i.symbols)
      (changed : Store.ChangedAt (fun _ => none) (KeysOf dropped collection) i.store i'.store) :
      Does (.dropCollection collection) i (.error e) i'

/-- Every call does one of these things. -/
theorem Op.does_run (op : Op) (i : Index) :
    op.Does i (Action.outcomeOf (op.run i)) (Action.stateOf (op.run i)) := by
  cases op with
  | flush batch =>
    -- A flush is one that nobody disturbs.
    rw [run, ← flushAmid_none]
    cases h : flushAmid .none (flushing i batch) with
    | ok summary f =>
      obtain ⟨s, hcommits, hsame, _⟩ := flushAmid_eq_ok h
      exact .flushed hcommits hsame
    | error e f =>
      obtain ⟨committed, name, waiting, t, s, hi, _⟩ := flushAmid_eq_error h
      exact .flushStopped hi
  | removeNodes document name removed =>
    rw [run]
    cases h : Index.removeNodes document name removed i with
    | ok a i' => exact .removed h
    | error e i' => exact .removeFailed h
  -- Names are removed one after the other, up to the first that fails.
  | removeBatch batch =>
    rw [run]
    cases h : Index.removeBatch (i, batch) with
    | ok a state => exact .batchRemoved (removeBatch_eq_ok h)
    | error e state =>
      obtain ⟨done, q, waiting, i₁, nodes, hnames, hdone, hknown, hfailed⟩ := removeBatch_eq_error h
      exact .batchStopped hnames hdone hknown hfailed
  -- A drop that fails has cut the document out of some values.
  | dropDocument document stop =>
    rw [run]
    cases h : Index.dropDocument document stop i with
    | ok count i' =>
      obtain ⟨hsymbols, hchanged⟩ := dropDocument_eq_ok h
      exact .dropped hsymbols hchanged
    | error e i' =>
      obtain ⟨hsymbols, done, hwithin, hchanged⟩ := dropDocument_eq_error h
      exact .dropStopped hsymbols hwithin hchanged
  | dropCollection collection =>
    rw [run]
    cases h : Index.dropCollection collection i with
    | ok count i' =>
      obtain ⟨hsymbols, hcleared⟩ := dropCollection_eq_ok h
      exact .cleared hsymbols hcleared.changedAt
    | error e i' =>
      obtain ⟨hsymbols, dropped, kind, waiting, hkinds, hchanged⟩ := dropCollection_eq_error h
      exact .clearStopped hkinds hsymbols hchanged

end Index

/-! ## Intact stores -/

/-- The key of a name whose codes are in the table. -/
def Key.Named (t : SymbolTable) (key : Bytes) : Prop :=
  ∃ kind collection name k, Key.lookup? t kind collection name = some k ∧ key = k.toBytes

/-- The key of a name stays one as the table grows. -/
theorem Key.Named.of_extends {t t' : SymbolTable} {key : Bytes} (h : Named t key)
    (hext : t'.Extends t) : Named t' key := by
  obtain ⟨kind, collection, name, k, hk, hkey⟩ := h
  exact ⟨kind, collection, name, k, lookup?_of_extends hext hk, hkey⟩

namespace Store

/-- The values are made of intact blocks, and the keys are those of names whose codes are in
the table. -/
structure IntactFor (s : Store) (t : SymbolTable) : Prop where
  values : s.IntactValues
  keys : ∀ key, (s.value? key).isSome → Key.Named t key

namespace IntactFor

variable {s s' : Store} {t t' : SymbolTable}

/-- A store stays intact if every value was there before or is made of intact blocks under the key
of a name. -/
theorem of_value? (h : s.IntactFor t) (hext : t'.Extends t)
    (hvalue : ∀ key value, s'.value? key = some value → s.value? key = some value ∨
      (Block.IntactValue value ∧ ((s.value? key).isSome ∨ Key.Named t' key))) :
    s'.IntactFor t' where
  values := fun key value hv => (hvalue key value hv).elim (h.values key value) And.left
  keys := fun key hv => by
    obtain ⟨value, hv⟩ := Option.isSome_iff_exists.mp hv
    -- Only a new key needs a name of its own.
    rcases hvalue key value hv with hold | ⟨_, hold | hnamed⟩
    · exact (h.keys key (by rw [hold]; rfl)).of_extends hext
    · exact (h.keys key hold).of_extends hext
    · exact hnamed

/-- A store with the same contents is intact, in any table with more codes. -/
theorem of_sameContents (h : s.IntactFor t) (hs : s'.SameContents s) (hext : t'.Extends t) :
    s'.IntactFor t' :=
  h.of_value? hext fun key _ hv => .inl (hs.value? key ▸ hv)

/-- The blocks under a key. -/
theorem exists_blocks (h : s.IntactFor t) (key : Bytes) :
    ∃ bs, Block.Intact bs ∧ (s.value? key).getD [] = Block.valueOf bs := by
  cases hv : s.value? key with
  | none => exact ⟨[], Block.intact_nil, rfl⟩
  | some value => exact h.values key value hv

end IntactFor

end Store

/-! ## Every call keeps the store intact -/

section Flush

variable {b : Batch} {names : List QName} {t t' : SymbolTable} {s s' : Store}

/-- An ordered block is accepted only where its document has none. -/
theorem Store.Accepts.forall_doc_ne {k : Key} {doc : DocId} {order : BlockOrder}
    {bs : List Block} (h : s.Accepts k doc order) (hbs : Block.Intact bs)
    (hvalue : (s.value? k.toBytes).getD [] = Block.valueOf bs) :
    order = .ordered → ∀ b ∈ bs, b.doc ≠ doc := by
  intro hord
  cases hv : s.value? k.toBytes with
  | none =>
    rw [hv] at hvalue
    obtain rfl : [] = bs := Index.blocksOf_of_getD hbs hvalue
    exact fun _ hb => absurd hb List.not_mem_nil
  | some value =>
    rw [hv] at hvalue
    -- The check of the blocks went through.
    have haccept := h hord value hv
    rw [show value = Block.valueOf bs from hvalue, hbs.scan_eq] at haccept
    exact Framing.requireNoBlockOf_eq_ok_iff.mp haccept

/-- The block of a name, behind intact blocks that accept it. -/
theorem Batch.Fits.intact_append {q : QName} {nodes : List NodeRef} {bs : List Block}
    (hb : b.Fits) (hn : b.nodes? q = some nodes) (hbs : Block.Intact bs)
    (hnew : b.order = .ordered → ∀ b' ∈ bs, b'.doc ≠ b.document.id) :
    Block.Intact (bs ++ [Block.ofEntries b.document.id b.order (NodeRef.entries nodes)]) := by
  obtain ⟨hne, hfit⟩ := hb q nodes hn
  refine hbs.append (hfit.perm (NodeRef.perm_entries nodes)) ?_
    (fun _ => NodeRef.pairwise_entries nodes) hnew
  rw [NodeRef.entries, ne_eq, List.map_eq_nil_iff]
  -- No name of the batch is without nodes, so the block has an entry.
  exact fun hnil => hne (List.Perm.nil_eq (hnil ▸ NodeRef.perm_sort nodes)).symm

/-- What a commit does to the blocks under the key of its name. -/
theorem Batch.Fits.commit_blocks {q : QName} {nodes : List NodeRef} {k : Key} (hb : b.Fits)
    (known : b.nodes? q = some nodes) (accepted : s.Accepts k b.document.id b.order)
    (hs : s.IntactFor t) :
    ∃ bs, Block.Intact bs ∧ (s.value? k.toBytes).getD [] = Block.valueOf bs ∧
      (b.order = .ordered → ∀ b' ∈ bs, b'.doc ≠ b.document.id) ∧
      Block.Intact (bs ++ [Block.ofEntries b.document.id b.order (NodeRef.entries nodes)]) ∧
      ∀ key, (s.appended k.toBytes (b.blockOf nodes)).value? key = if key = k.toBytes then
        some (Block.valueOf
          (bs ++ [Block.ofEntries b.document.id b.order (NodeRef.entries nodes)]))
        else s.value? key := by
  -- What is under the key so far is blocks, or nothing at all.
  obtain ⟨bs, hbs, hvalue⟩ := hs.exists_blocks k.toBytes
  have hnew := accepted.forall_doc_ne hbs hvalue
  refine ⟨bs, hbs, hvalue, hnew, hb.intact_append known hbs hnew, fun key => ?_⟩
  rw [Store.value?_appended, hvalue, Block.valueOf_append]
  simp [Batch.blockOf, NodeRef.entries]

/-- A commit keeps the store intact. -/
theorem Batch.Fits.intactFor_appended {q : QName} {nodes : List NodeRef} {k : Key}
    (hb : b.Fits) (known : b.nodes? q = some nodes)
    (formed : Key.ofName q.kind b.document.collection q t = .ok k t')
    (accepted : s.Accepts k b.document.id b.order) (hs : s.IntactFor t) :
    (s.appended k.toBytes (b.blockOf nodes)).IntactFor t' := by
  obtain ⟨hlookup, hext⟩ := Key.ofName_eq_ok formed
  obtain ⟨bs, _, _, _, hintact, hstore⟩ := hb.commit_blocks known accepted hs
  refine hs.of_value? hext fun key value hv => ?_
  rw [hstore] at hv
  -- Only the value under the key of the name is new.
  split at hv
  · next hkey =>
    obtain rfl := Option.some.inj hv
    exact .inr ⟨⟨_, hintact, rfl⟩, .inr ⟨_, _, _, k, hlookup, hkey⟩⟩
  · exact .inl hv

/-- Any number of commits keeps the store intact. -/
theorem Batch.Commits.intactFor (hb : b.Fits) (h : b.Commits names t s t' s')
    (hs : s.IntactFor t) : s'.IntactFor t' := by
  induction h with
  | nil => exact hs
  | cons known formed accepted rest ih =>
    exact ih (hb.intactFor_appended known formed accepted hs)

end Flush

section Removal

variable {document : Document} {name : QName} {removed : List NodeId} {i i' : Index} {e : Error}

/-- Forming a key, whether it succeeds or not, takes no code away. -/
theorem extends_stateOf_ofName (kind : NameKind) (collection : CollectionId) (name : QName)
    (t : SymbolTable) :
    SymbolTable.Extends (Action.stateOf (Key.ofName kind collection name t)) t := by
  cases h : Key.ofName kind collection name t with
  | ok k t' => exact (Key.ofName_eq_ok h).2
  | error e t' => exact Key.ofName_eq_error h

/-- The name that a flush stopped at may have got codes all the same. -/
theorem Index.Interrupted.extends_symbols {b : Batch} {names committed waiting : List QName}
    {q : QName} {t₀ t : SymbolTable} {s₀ s : Store} {f : Flushing}
    (h : Index.Interrupted b names t₀ s₀ f committed q waiting t s) :
    f.index.symbols.Extends t := by
  rw [h.symbols]
  exact extends_stateOf_ofName _ _ _ _

namespace Index

/-- What a removal does to the blocks under the key of its name. -/
theorem removeNodes_blocks (hs : i.store.IntactFor i.symbols)
    (hfits : i.RemovalFits document name removed)
    (h : removeNodes document name removed i = .ok () i') :
    ∃ k bs, Key.ofName name.kind document.collection name i.symbols = .ok k i'.symbols ∧
      Block.Intact bs ∧ (i.store.value? k.toBytes).getD [] = Block.valueOf bs ∧
      (Entry.encodeBody (Entry.arrange (Block.survivors document.id removed bs))).length <
        UInt32.size ∧
      ∀ key, i'.store.value? key = if key = k.toBytes then
        some (Block.valueOf (Block.rewritten document.id removed bs)) else i.store.value? key := by
  obtain ⟨k, value, hof, hvalue, hstore⟩ := removeNodes_eq_ok h
  obtain ⟨bs, hbs, hblocks⟩ := hs.exists_blocks k.toBytes
  rw [hblocks, withoutNodes_eq hbs] at hvalue
  obtain rfl := Except.ok.inj hvalue
  refine ⟨k, bs, hof, hbs, hblocks, ?_, hstore⟩
  -- The limit is one on stored values; without one only the closing mark is left.
  cases hv : i.store.value? k.toBytes with
  | none =>
    rw [hv] at hblocks
    obtain rfl : [] = bs := blocksOf_of_getD hbs hblocks
    show (Entry.encodeBody (Entry.arrange [])).length < UInt32.size
    simp [Entry.arrange, Entry.sort, Entry.dropRepeats, Entry.encodeBody, NodeId.encodeEnd,
      Varint.encode, Varint.encodeNat, UInt32.size]
  | some old =>
    rw [hv] at hblocks
    have hfit := hfits k _ old hof hv
    rwa [show old = Block.valueOf bs from hblocks, hbs.scan_eq] at hfit

/-- A removal keeps the store intact. -/
theorem intactFor_of_removeNodes (hs : i.store.IntactFor i.symbols)
    (hfits : i.RemovalFits document name removed)
    (h : removeNodes document name removed i = .ok () i') :
    i'.store.IntactFor i'.symbols := by
  obtain ⟨k, bs, hof, hbs, _, hlength, hstore⟩ := removeNodes_blocks hs hfits h
  obtain ⟨hlookup, hext⟩ := Key.ofName_eq_ok hof
  refine hs.of_value? hext fun key value hv => ?_
  rw [hstore] at hv
  -- Only the value under the key of the name is new.
  split at hv
  · next hkey =>
    obtain rfl := Option.some.inj hv
    exact .inr ⟨⟨_, hbs.rewritten hlength, rfl⟩, .inr ⟨_, _, _, k, hlookup, hkey⟩⟩
  · exact .inl hv

/-- A removal that fails keeps the store intact. -/
theorem intactFor_of_removeNodes_eq_error (hs : i.store.IntactFor i.symbols)
    (h : removeNodes document name removed i = .error e i') : i'.store.IntactFor i'.symbols := by
  obtain ⟨hsame, hsymbols⟩ := removeNodes_eq_error h
  rw [hsymbols]
  exact hs.of_sameContents hsame.sameContents (extends_stateOf_ofName _ _ _ _)

/-- Any number of removals keeps the store intact. -/
theorem Removals.intactFor {b : Batch} {names : List QName} (h : Removals b names i i')
    (hfits : RemovalsFit b names i) (hs : i.store.IntactFor i.symbols) :
    i'.store.IntactFor i'.symbols := by
  induction h with
  | nil => exact hs
  | cons known removed rest ih =>
    obtain ⟨hfirst, hrest⟩ := hfits _ known
    exact ih (hrest _ removed) (intactFor_of_removeNodes hs hfirst removed)

end Index

end Removal

section Dropping

variable {s s' : Store} {t t' : SymbolTable} {done : Bytes → Prop}

/-- Cutting out a document keeps the store intact. -/
theorem Store.IntactFor.of_cutOut {document : Document} (hs : s.IntactFor t) (ht : t' = t)
    (h : Store.ChangedAt (Index.cutOut document) done s s') : s'.IntactFor t' := by
  subst ht
  refine ⟨Index.intactValues_of_cutOut hs.values h, fun key hv => hs.keys key ?_⟩
  by_cases hdone : done key
  · rwa [(h key).1 hdone, Index.cutOut, Option.isSome_map] at hv
  · rwa [(h key).2 hdone] at hv

/-- Removing keys keeps the store intact. -/
theorem Store.IntactFor.of_cleared (hs : s.IntactFor t) (ht : t' = t)
    (h : Store.ChangedAt (fun _ => none) done s s') : s'.IntactFor t' := by
  subst ht
  refine hs.of_value? (.refl _) fun key value hv => .inl ?_
  by_cases hdone : done key
  · rw [(h key).1 hdone] at hv
    cases hv
  · rwa [(h key).2 hdone] at hv

end Dropping

namespace Index

variable {i : Index} {op : Op}

/-- Every call keeps the store intact. -/
theorem Op.Does.intactFor {outcome : Except Error Unit} {i' : Index}
    (h : op.Does i outcome i') (hfits : op.Fits i) (hs : i.store.IntactFor i.symbols) :
    i'.store.IntactFor i'.symbols := by
  cases h with
  -- A case for each way a call can end.
  | flushed commits same => exact (commits.intactFor hfits hs).of_sameContents same (.refl _)
  | flushStopped interrupted =>
    have hintact := interrupted.commits.intactFor hfits hs
    exact hintact.of_sameContents interrupted.sameContents interrupted.extends_symbols
  | removed h => exact intactFor_of_removeNodes hs hfits h
  | removeFailed h => exact intactFor_of_removeNodes_eq_error hs h
  | batchRemoved removals => exact removals.intactFor hfits hs
  | batchStopped names removals known failed =>
    rw [Op.Fits, names] at hfits
    exact intactFor_of_removeNodes_eq_error (removals.intactFor hfits.front hs) failed
  | dropped symbols changed => exact hs.of_cutOut symbols changed
  | dropStopped symbols within changed => exact hs.of_cutOut symbols changed
  | cleared symbols changed => exact hs.of_cleared symbols changed
  | clearStopped kinds symbols changed => exact hs.of_cleared symbols changed

/-- A run goes on with a call whose outcome is known. -/
theorem Run.call_of_outcome {admits : Op → Prop} {calls : List (Op × Except Error Unit)}
    {i : Index} {op : Op} {outcome : Except Error Unit} (before : Run admits calls i)
    (admitted : admits op) (fits : op.Fits i) (h : Action.outcomeOf (op.run i) = outcome) :
    Run admits (calls ++ [(op, outcome)]) (Action.stateOf (op.run i)) :=
  h ▸ before.call admitted fits

/-- The calls of a run are such as are allowed. -/
theorem Run.admitted {admits : Op → Prop} {calls : List (Op × Except Error Unit)}
    (h : Run admits calls i) : ∀ call ∈ calls, admits call.1 := by
  induction h with
  | start empty => exact fun _ hcall => absurd hcall List.not_mem_nil
  | call before admitted fits ih =>
    exact List.forall_mem_append.mpr ⟨ih, List.forall_mem_singleton.mpr admitted⟩
  | others before same grown ih => exact ih

/-- Every run keeps the store intact. -/
theorem Run.intact {admits : Op → Prop} {calls : List (Op × Except Error Unit)}
    (h : Run admits calls i) : i.store.IntactFor i.symbols := by
  -- Induction on the run: every call keeps the store intact, whatever its outcome.
  induction h with
  | start hempty =>
    refine ⟨fun key value hv => ?_, fun key hv => ?_⟩
    · rw [Store.value?_of_empty hempty] at hv
      cases hv
    · rw [Store.value?_of_empty hempty] at hv
      cases hv
  | @call calls i op before admitted fits ih => exact (op.does_run i).intactFor fits ih
  | others before same grown ih => exact ih.of_sameContents same grown

end Index

end XmlIndex
