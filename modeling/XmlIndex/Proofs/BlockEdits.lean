import XmlIndex.Proofs.UpdateEffects

/-! # How the stored blocks came about

The calls of a run are told as edits of the blocks under the names (`Index.Edit`): a flush writes
one block for each name that it commits, a removal merges the blocks of its document under a
name, dropping cuts the blocks of a document out or clears whole families of a collection.  Which
edits a call makes depends on it and on its outcome only (`Index.Op.Makes`); a call that fails
has made a part of them.

`Index.History` is a run of the blocks alone.  Every run of the index has one that ends with the
blocks that are stored (`Index.Run.exists_history`), so that what is said about stored blocks can
be proved by going through the edits. -/

namespace XmlIndex

open Effect (Under)

namespace Index

/-- The blocks under every name. -/
abbrev BlockMap := NameKind → CollectionId → QName → List Block

/-- A change of the blocks under some names. -/
inductive Edit where
  | write (document : Document) (name : QName) (order : BlockOrder) (entries : List Entry)
  | merge (document : Document) (name : QName) (removed : List NodeId)
  | cut (document : Document) (under : NameKind → QName → Bool)
  | clear (collection : CollectionId) (kinds : List NameKind)

namespace Edit

/-- The nodes of a name of the batch are written. -/
def writing (b : Batch) (name : QName) : Edit :=
  .write b.document name b.order (NodeRef.entries ((b.nodes? name).getD []))

/-- The nodes of a name of the batch are removed. -/
def removing (b : Batch) (name : QName) : Edit :=
  .merge b.document name (((b.nodes? name).getD []).map (·.node))

/-- The blocks after an edit. -/
def apply (m : BlockMap) : Edit → BlockMap
  | write document name order entries => fun kind c q =>
    if Under document name kind c q then
      m kind c q ++ [Block.ofEntries document.id order entries]
    else m kind c q
  | merge document name removed => fun kind c q =>
    if Under document name kind c q then Block.rewritten document.id removed (m kind c q)
    else m kind c q
  | cut document under => fun kind c q =>
    if c = document.collection ∧ under kind q then Block.others document.id (m kind c q)
    else m kind c q
  | clear collection kinds => fun kind c q =>
    if c = collection ∧ kind ∈ kinds then [] else m kind c q

/-- A block that is written keeps to the limits of the format, and names with one heading are cut
out together. -/
def Fits (m : BlockMap) : Edit → Prop
  | write _ _ _ entries => Entry.FitBlock entries
  | merge document name removed => ∀ kind c q, Under document name kind c q →
      Entry.FitBlock (Entry.arrange (Block.survivors document.id removed (m kind c q)))
  | cut _ under => ∀ kind q q', Key.SameHeading kind q q' → under kind q = under kind q'
  | clear _ _ => True

end Edit

/-- Edits, one after the other. -/
inductive Edits : BlockMap → List Edit → BlockMap → Prop
  | nil {m : BlockMap} : Edits m [] m
  | cons {m m' : BlockMap} {e : Edit} {es : List Edit} (fits : e.Fits m)
      (rest : Edits (e.apply m) es m') : Edits m (e :: es) m'

namespace Edits

variable {m m' m'' : BlockMap} {es es' : List Edit}

/-- One edit. -/
theorem single {e : Edit} (fits : e.Fits m) (h : m' = e.apply m) : Edits m [e] m' :=
  h ▸ .cons fits .nil

/-- Edits and then others. -/
theorem append (h : Edits m es m') (h' : Edits m' es' m'') : Edits m (es ++ es') m'' := by
  induction h with
  | nil => exact h'
  | cons fits rest ih => exact .cons fits (ih h')

end Edits

/-- The edits of a call with this outcome.  A batch that fails has been worked on up to a name, a
collection up to a family; a document has been cut out under some names. -/
inductive Op.Makes : Op → Except Error Unit → List Edit → Prop
  | flush {b : Batch} {committed waiting : List QName} {outcome : Except Error Unit}
      (names : b.names = committed ++ waiting) (all : outcome = .ok () ↔ waiting = []) :
      Makes (.flush b) outcome (committed.map (Edit.writing b))
  | removeNodes {document : Document} {name : QName} {removed : List NodeId} :
      Makes (.removeNodes document name removed) (.ok ()) [.merge document name removed]
  | removeNodesFailed {document : Document} {name : QName} {removed : List NodeId} {e : Error} :
      Makes (.removeNodes document name removed) (.error e) []
  | removeBatch {b : Batch} {removed waiting : List QName} {outcome : Except Error Unit}
      (names : b.names = removed ++ waiting) (all : outcome = .ok () ↔ waiting = []) :
      Makes (.removeBatch b) outcome (removed.map (Edit.removing b))
  | dropDocument {document : Document} {stop : Nat → Bool} :
      Makes (.dropDocument document stop) (.ok ()) [.cut document fun _ _ => true]
  | dropDocumentFailed {document : Document} {stop : Nat → Bool} {e : Error}
      {under : NameKind → QName → Bool} :
      Makes (.dropDocument document stop) (.error e) [.cut document under]
  | dropCollection {collection : CollectionId} {dropped waiting : List NameKind}
      {outcome : Except Error Unit} (kinds : NameKind.all = dropped ++ waiting)
      (all : outcome = .ok () ↔ waiting = []) :
      Makes (.dropCollection collection) outcome [.clear collection dropped]

/-- The edits that calls have made from the beginning, and the blocks they led to. -/
inductive History : List (Op × Except Error Unit) → List Edit → BlockMap → Prop
  | start : History [] [] fun _ _ _ => []
  | call {calls : List (Op × Except Error Unit)} {op : Op} {outcome : Except Error Unit}
      {es new : List Edit} {m m' : BlockMap} (before : History calls es m)
      (makes : op.Makes outcome new) (edits : Edits m new m') :
      History (calls ++ [(op, outcome)]) (es ++ new) m'

namespace History

variable {calls : List (Op × Except Error Unit)} {es : List Edit} {m : BlockMap}

/-- A history is one of edits from no blocks. -/
theorem edits (h : History calls es m) : Edits (fun _ _ _ => []) es m := by
  induction h with
  | start => exact .nil
  | call before makes edits ih => exact ih.append edits

/-- Every edit was made by a call. -/
theorem exists_call (h : History calls es m) {e : Edit} (he : e ∈ es) :
    ∃ call ∈ calls, ∃ new, call.1.Makes call.2 new ∧ e ∈ new := by
  induction h with
  | start => exact absurd he List.not_mem_nil
  | @call calls op outcome es new m m' before makes edits ih =>
    -- The edit was made before, or by the last call.
    rcases List.mem_append.mp he with he | he
    · obtain ⟨call, hcall, hmade⟩ := ih he
      exact ⟨call, List.mem_append_left _ hcall, hmade⟩
    · exact ⟨(op, outcome), List.mem_append_right _ (.head _), new, makes, he⟩

end History

end Index

/-! ## The edits of the calls -/

namespace Store

/-- Neither new codes nor what leaves the values alone changes the blocks under a name. -/
theorem blocksUnder_congr {s s' : Store} {t t' : SymbolTable} (hs : s.KeysNamed t)
    (hsame : ∀ key, s'.value? key = s.value? key) (hext : t'.Extends t) :
    s'.blocksUnder t' = s.blocksUnder t := by
  funext kind c q
  rw [blocksUnder, valueUnder_congr hsame, valueUnder_of_extends hs hext, blocksUnder]

end Store

namespace Batch

open Index

variable {b : Batch} {names : List QName} {t t' : SymbolTable} {s s' : Store}

/-- A block is written for every name that is committed. -/
theorem Commits.edits (hb : b.Fits) (h : b.Commits names t s t' s') (hs : s.IntactFor t) :
    Edits (s.blocksUnder t) (names.map (Edit.writing b)) (s'.blocksUnder t') := by
  -- Induction on the commits; each writes the block of its name.
  induction h with
  | nil => exact .nil
  | @cons q names nodes k t t₁ t' s s' known formed accepted rest ih =>
    obtain ⟨bs, hbs, hvalue, _, hintact, hstore⟩ := hb.commit_blocks known accepted hs
    have hwriting : Edit.writing b q = .write b.document q b.order (NodeRef.entries nodes) := by
      rw [Edit.writing, known, Option.getD_some]
    have hfirst : (s.appended k.toBytes (b.blockOf nodes)).blocksUnder t₁ =
        (Edit.writing b q).apply (s.blocksUnder t) := by
      funext kind c q'
      rw [Effect.blocksUnder_formed hs.keys formed hstore hintact, hwriting, Edit.apply]
      refine ite_congr rfl (fun hunder => ?_) fun _ => rfl
      rw [Effect.blocksUnder_of_under hs.keys formed hunder, blocksOf_of_getD hbs hvalue]
    refine .cons ?_ ?_
    · rw [hwriting]
      exact (hb q nodes known).2.perm (NodeRef.perm_entries nodes)
    · rw [← hfirst]
      exact ih (hb.intactFor_appended known formed accepted hs)

end Batch

namespace Index

section Removals

variable {i i' : Index}

/-- A removal merges the blocks of its document under one name. -/
theorem edits_of_removeNodes {document : Document} {name : QName} {removed : List NodeId}
    (hs : i.store.IntactFor i.symbols) (hfits : i.RemovalFits document name removed)
    (h : removeNodes document name removed i = .ok () i') :
    Edits (i.store.blocksUnder i.symbols) [.merge document name removed]
      (i'.store.blocksUnder i'.symbols) := by
  obtain ⟨k, bs, formed, hbs, hvalue, hlength, hstore⟩ := removeNodes_blocks hs hfits h
  have hunder : ∀ {kind c q}, Under document name kind c q →
      i.store.blocksUnder i.symbols kind c q = bs := fun hunder => by
    rw [Effect.blocksUnder_of_under hs.keys formed hunder, blocksOf_of_getD hbs hvalue]
  -- The survivors fit into one block, and only the names under the key are affected.
  refine .single (fun kind c q hq => ?_) ?_
  · rw [hunder hq]
    exact (hbs.decodes document.id).fitBlock_survivors hlength
  · funext kind c q
    rw [Effect.blocksUnder_formed hs.keys formed hstore (hbs.rewritten hlength), Edit.apply]
    refine ite_congr rfl (fun hq => ?_) fun _ => rfl
    rw [hunder hq]

/-- A failing removal changes no block. -/
theorem blocksUnder_of_removeNodes_eq_error {document : Document} {name : QName}
    {removed : List NodeId} {e : Error} (hs : i.store.IntactFor i.symbols)
    (h : removeNodes document name removed i = .error e i') :
    i'.store.blocksUnder i'.symbols = i.store.blocksUnder i.symbols := by
  obtain ⟨hsame, hsymbols⟩ := removeNodes_eq_error h
  rw [hsymbols]
  exact Store.blocksUnder_congr hs.keys hsame.value? (extends_stateOf_ofName _ _ _ _)

/-- Removals merge the blocks of their names, one name after the other. -/
theorem Removals.edits {b : Batch} {names : List QName} (h : Removals b names i i')
    (hfits : RemovalsFit b names i) (hs : i.store.IntactFor i.symbols) :
    Edits (i.store.blocksUnder i.symbols) (names.map (Edit.removing b))
      (i'.store.blocksUnder i'.symbols) := by
  -- Induction on the removals; each merges the blocks of its name.
  induction h with
  | nil => exact .nil
  | @cons q names nodes i i₁ i' known removed rest ih =>
    obtain ⟨hfirst, hrest⟩ := hfits nodes known
    have hhere := edits_of_removeNodes hs hfirst removed
    have hremoving : Edit.removing b q = .merge b.document q (nodes.map (·.node)) := by
      rw [Edit.removing, known, Option.getD_some]
    rw [← hremoving] at hhere
    exact hhere.append (ih (hrest i₁ removed) (intactFor_of_removeNodes hs hfirst removed))

end Removals

section Dropping

variable {s s' : Store} {t : SymbolTable} {done : Bytes → Prop}

/-- A document is cut out under the names whose keys were come to. -/
theorem blocksUnder_of_cutOut {document : Document} {under : NameKind → QName → Bool}
    (hs : s.IntactFor t) (h : Store.ChangedAt (cutOut document) done s s')
    (hwithin : ∀ key, (s.value? key).isSome → done key →
      KeysOf NameKind.all document.collection key)
    (hunder : ∀ kind q k, Key.lookup? t kind document.collection q = some k →
      (under kind q ↔ done k.toBytes)) :
    s'.blocksUnder t = (Edit.cut document under).apply (s.blocksUnder t) := by
  funext kind c q
  show blocksOf (s'.valueUnder t kind c q) =
    if c = document.collection ∧ under kind q then
      Block.others document.id (blocksOf (s.valueUnder t kind c q))
    else blocksOf (s.valueUnder t kind c q)
  cases hk : Key.lookup? t kind c q with
  | none =>
    rw [Store.valueUnder_of_lookup?_eq_none hk, Store.valueUnder_of_lookup?_eq_none hk]
    exact (ite_self _).symm
  | some k =>
    rw [Store.valueUnder_of_lookup? hk, Store.valueUnder_of_lookup? hk]
    split
    · next hcut =>
      -- The name is one of those cut out, so its key was come to.
      obtain ⟨rfl, hq⟩ := hcut
      rw [(h k.toBytes).1 ((hunder kind q k hk).mp hq), blocksOf_cutOut hs.values]
    · next hcut =>
      by_cases hdone : done k.toBytes
      · rw [(h k.toBytes).1 hdone, blocksOf_cutOut hs.values]
        cases hv : s.value? k.toBytes with
        | none => rfl
        | some value =>
          -- A stored key that was come to is one of the collection, and so of a name cut out.
          have hkey := keysOf_toBytes.mp (hwithin k.toBytes (by rw [hv]; rfl) hdone)
          obtain ⟨rfl, rfl⟩ := Key.kind_of_lookup? hk
          rw [hkey.2] at hk hcut
          exact absurd ⟨rfl, (hunder _ _ _ hk).mpr hdone⟩ hcut
      · rw [(h k.toBytes).2 hdone]

/-- A document that was dropped is cut out under all names. -/
theorem edits_of_dropped {document : Document} (hs : s.IntactFor t)
    (h : Store.ChangedAt (cutOut document) (KeysOf NameKind.all document.collection) s s') :
    Edits (s.blocksUnder t) [.cut document fun _ _ => true] (s'.blocksUnder t) := by
  refine .single (fun _ _ _ _ => rfl) (blocksUnder_of_cutOut hs h (fun _ _ hkey => hkey) ?_)
  intro kind q k hk
  exact iff_of_true rfl (keysOf_toBytes.mpr ⟨mem_all k.kind, (Key.kind_of_lookup? hk).2⟩)

/-- Where the dropping came to an end in between, it is cut out under some of them. -/
theorem edits_of_cutOut {document : Document} (hs : s.IntactFor t)
    (h : Store.ChangedAt (cutOut document) done s s')
    (hwithin : ∀ key, (s.value? key).isSome → done key →
      KeysOf NameKind.all document.collection key) :
    ∃ under, Edits (s.blocksUnder t) [.cut document under] (s'.blocksUnder t) := by
  classical
  -- Which names have been done is read off the keys that the drop came to.
  refine ⟨fun kind q => decide (∃ k, Key.lookup? t kind document.collection q = some k ∧
    done k.toBytes), .single (fun kind q q' hheading => ?_) (blocksUnder_of_cutOut hs h hwithin ?_)⟩
  · simp only [Key.lookup?_of_sameHeading hheading]
  · intro kind q k hk
    simp [hk]

/-- Families that were cleared have no blocks any more. -/
theorem edits_of_cleared {collection : CollectionId} {kinds : List NameKind}
    (h : Store.ChangedAt (fun _ => none) (KeysOf kinds collection) s s') :
    Edits (s.blocksUnder t) [.clear collection kinds] (s'.blocksUnder t) := by
  refine .single trivial ?_
  funext kind c q
  show blocksOf (s'.valueUnder t kind c q) =
    if c = collection ∧ kind ∈ kinds then [] else blocksOf (s.valueUnder t kind c q)
  rw [Store.valueUnder_changedAt rfl h]
  split <;> rfl

end Dropping

/-! ## Every call -/

section Runs

variable {i i' : Index}

/-- A call makes its edits to the stored blocks. -/
theorem Op.Does.exists_edits {op : Op} {outcome : Except Error Unit} (h : op.Does i outcome i')
    (hfits : op.Fits i) (hs : i.store.IntactFor i.symbols) :
    ∃ es, op.Makes outcome es ∧
      Edits (i.store.blocksUnder i.symbols) es (i'.store.blocksUnder i'.symbols) := by
  cases h with
  | @flushed b i i' s commits same =>
    have hedits := commits.edits hfits hs
    have hkeys := (commits.intactFor hfits hs).keys
    rw [← Store.blocksUnder_congr hkeys same.value? (.refl _)] at hedits
    exact ⟨_, .flush (List.append_nil _).symm (by simp), hedits⟩
  -- What was committed in front of the failing name has been written.
  | flushStopped interrupted =>
    have hedits := interrupted.commits.edits hfits hs
    have hkeys := (interrupted.commits.intactFor hfits hs).keys
    rw [← Store.blocksUnder_congr hkeys interrupted.sameContents.value?
      interrupted.extends_symbols] at hedits
    exact ⟨_, .flush interrupted.names_eq (by simp), hedits⟩
  | removed h => exact ⟨_, .removeNodes, edits_of_removeNodes hs hfits h⟩
  | removeFailed h =>
    refine ⟨_, .removeNodesFailed, ?_⟩
    rw [blocksUnder_of_removeNodes_eq_error hs h]
    exact .nil
  | batchRemoved removals =>
    exact ⟨_, .removeBatch (List.append_nil _).symm (by simp), removals.edits hfits hs⟩
  -- What was removed in front of the failing name has been merged.
  | batchStopped names removals known failed =>
    rw [Op.Fits, names] at hfits
    refine ⟨_, .removeBatch names (by simp), ?_⟩
    rw [blocksUnder_of_removeNodes_eq_error (removals.intactFor hfits.front hs) failed]
    exact removals.edits hfits.front hs
  | dropped symbols changed =>
    refine ⟨_, .dropDocument, ?_⟩
    rw [symbols]
    exact edits_of_dropped hs changed
  | dropStopped symbols within changed =>
    obtain ⟨under, hedits⟩ := edits_of_cutOut hs changed within
    rw [symbols]
    exact ⟨_, .dropDocumentFailed, hedits⟩
  -- Clearing is an edit of whole families of names.
  | cleared symbols changed =>
    refine ⟨_, .dropCollection (List.append_nil _).symm (by simp), ?_⟩
    rw [symbols]
    exact edits_of_cleared changed
  | clearStopped kinds symbols changed =>
    refine ⟨_, .dropCollection kinds (by simp), ?_⟩
    rw [symbols]
    exact edits_of_cleared changed

/-- Every run has a history, and that ends with the blocks that are stored. -/
theorem Run.exists_history {admits : Op → Prop} {calls : List (Op × Except Error Unit)}
    (h : Run admits calls i) : ∃ es, History calls es (i.store.blocksUnder i.symbols) := by
  -- Induction on the run; what others do changes no block.
  induction h with
  | @start i hempty =>
    have hblocks : i.store.blocksUnder i.symbols = fun _ _ _ => [] := by
      funext kind c q
      cases hk : Key.lookup? i.symbols kind c q with
      | none => rw [Store.blocksUnder, Store.valueUnder_of_lookup?_eq_none hk]; rfl
      | some k =>
        rw [Store.blocksUnder, Store.valueUnder_of_lookup? hk, Store.value?_of_empty hempty]
        rfl
    rw [hblocks]
    exact ⟨[], .start⟩
  | @call calls i op before admitted fits ih =>
    obtain ⟨es, hhistory⟩ := ih
    obtain ⟨new, hmakes, hedits⟩ := (op.does_run i).exists_edits fits before.intact
    exact ⟨es ++ new, hhistory.call hmakes hedits⟩
  | others before same grown ih =>
    rw [Store.blocksUnder_congr before.intact.keys same.value? grown]
    exact ih

end Runs

/-! ## Where stored entries come from -/

section Origins

variable {kind : NameKind} {c : CollectionId} {q : QName} {doc : DocId} {entry : Entry}
  {m m' : BlockMap}

/-- An edit stores the entries that it writes, and no others that were not there. -/
theorem Edit.mem_entriesIn_apply {e : Edit} (hfits : e.Fits m)
    (h : entry ∈ Block.entriesIn doc (e.apply m kind c q)) :
    entry ∈ Block.entriesIn doc (m kind c q) ∨
      ∃ document name order entries, e = write document name order entries ∧
        document.id = doc ∧ Under document name kind c q ∧ entry ∈ entries := by
  obtain ⟨b, hb, hdoc, hentry⟩ := Block.mem_entriesIn.mp h
  have hkept : b ∈ m kind c q → entry ∈ Block.entriesIn doc (m kind c q) := fun hmem =>
    Block.mem_entriesIn.mpr ⟨b, hmem, hdoc, hentry⟩
  -- Only writing puts entries there that were not there before.
  cases e with
  | write document name order entries =>
    change b ∈ if Under document name kind c q then _ else _ at hb
    split at hb
    · next hunder =>
      rcases List.mem_append.mp hb with hb | hb
      · exact .inl (hkept hb)
      -- It is the block that was written.
      · obtain rfl := List.mem_singleton.mp hb
        rw [Block.content_ofEntries document.id order hfits] at hentry
        exact .inr ⟨document, name, order, entries, rfl, hdoc, hunder, hentry⟩
    · exact .inl (hkept hb)
  | merge document name removed =>
    change b ∈ if Under document name kind c q then _ else _ at hb
    split at hb
    · next hunder =>
      rcases List.mem_append.mp hb with hb | hb
      · exact .inl (hkept (List.mem_filter.mp hb).1)
      · -- What the merged block holds has survived from the blocks of its document.
        have hmerged := Block.doc_of_mem_merged hb
        rw [Block.merged] at hb
        split at hb
        · cases hb
        · rw [List.mem_singleton.mp hb, Block.content_ofEntries _ _ (hfits kind c q hunder)]
            at hentry
          rw [← hdoc, hmerged]
          exact .inl (List.mem_filter.mp (Entry.mem_of_mem_arrange hentry)).1
    · exact .inl (hkept hb)
  -- Cutting and clearing leave blocks out.
  | cut document under =>
    change b ∈ if c = document.collection ∧ under kind q then _ else _ at hb
    split at hb
    · exact .inl (hkept (List.mem_filter.mp hb).1)
    · exact .inl (hkept hb)
  | clear collection kinds =>
    change b ∈ if c = collection ∧ kind ∈ kinds then _ else _ at hb
    split at hb
    · cases hb
    · exact .inl (hkept hb)

/-- Edits store the entries that they write, and no others that were not there. -/
theorem Edits.mem_entriesIn {es : List Edit} (h : Edits m es m')
    (hentry : entry ∈ Block.entriesIn doc (m' kind c q)) :
    entry ∈ Block.entriesIn doc (m kind c q) ∨
      ∃ document name order entries, .write document name order entries ∈ es ∧
        document.id = doc ∧ Under document name kind c q ∧ entry ∈ entries := by
  -- Induction on the edits: the entry was written by a later one, or by the first, or was there.
  induction h with
  | nil => exact .inl hentry
  | cons fits rest ih =>
    rcases ih hentry with hafter | ⟨document, name, order, entries, hwrite, hplace⟩
    · rcases Edit.mem_entriesIn_apply fits hafter with hbefore | ⟨_, _, _, _, rfl, hplace⟩
      · exact .inl hbefore
      · exact .inr ⟨_, _, _, _, .head _, hplace⟩
    · exact .inr ⟨document, name, order, entries, .tail _ hwrite, hplace⟩

/-- Every stored entry is that of a node which a flush was given for the document, under a name
with this key. -/
theorem History.exists_flush {calls : List (Op × Except Error Unit)} {es : List Edit}
    (h : History calls es m) (hentry : entry ∈ Block.entriesIn doc (m kind c q)) :
    ∃ b outcome name nodes, (.flush b, outcome) ∈ calls ∧ b.nodes? name = some nodes ∧
      b.document.id = doc ∧ Under b.document name kind c q ∧ ∃ r ∈ nodes, entry = r.toEntry := by
  rcases h.edits.mem_entriesIn hentry with hnone | ⟨document, q', order, entries, he, hdoc, hu, hm⟩
  · cases hnone
  obtain ⟨⟨op, outcome⟩, hcall, new, hmakes, hnew⟩ := h.exists_call he
  -- Only a flush writes.
  cases hmakes with
  | @flush b committed waiting _ names all =>
    obtain ⟨name, _, hwriting⟩ := List.mem_map.mp hnew
    obtain ⟨rfl, rfl, rfl, rfl⟩ := Edit.write.inj hwriting
    have hentries := (NodeRef.perm_entries _).mem_iff.mp hm
    obtain ⟨r, hr, rfl⟩ := List.mem_map.mp hentries
    -- What is written under a name are the nodes that the batch has for it.
    cases hnodes : b.nodes? name with
    | none =>
      rw [hnodes] at hr
      cases hr
    | some nodes =>
      rw [hnodes] at hr
      exact ⟨b, outcome, name, nodes, hcall, hnodes, hdoc, hu, r, hr, rfl⟩
  | removeBatch names all =>
    obtain ⟨_, _, hwriting⟩ := List.mem_map.mp hnew
    cases hwriting
  | _ => simp at hnew

end Origins

end Index

end XmlIndex
