import XmlIndex.Proofs.DocumentParts
import XmlIndex.Proofs.SymbolCoverage
import XmlIndex.Proofs.ValuesByName

/-! # What an update of a document does

An update of one document, a flush, a removal or its dropping, does the same wherever it succeeds:
it gives codes to its names, puts values under them where there were none, changes the blocks of
its document in its own way and leaves those of the other documents alone.  This is its effect
(`Index.Op.effect`), told without reference to the index it is made on, and a successful update
leads from any intact index to one changed by its effect (`Index.Op.leads`).

The effects of steps are put together in the order of the steps (`Effect.Leads.trans`); a single
step changes the value under the key of one name (`Effect.leads_under`). -/

namespace XmlIndex

open Index (blocksOf)
open Block (part)

/-! ## Codes given with a key -/

namespace Interner

variable {t t' : Interner} {s : String} {c : UInt16}

/-- Giving a text a code adds it to the texts with a code. -/
theorem isSome_code?_of_intern (h : intern s t = .ok c t') (s' : String) :
    (t'.code? s').isSome ↔ (t.code? s').isSome ∨ s' = s := by
  cases hs : t.code? s with
  | some c' =>
    rw [intern_of_code? hs] at h
    obtain ⟨_, rfl⟩ := EStateM.Result.ok.inj h
    refine ⟨.inl, fun h => h.elim (fun hcode => hcode) ?_⟩
    rintro rfl
    rw [hs]
    rfl
  | none =>
    -- A new text is given a code, as the call went through.
    by_cases room : t.texts.size + 1 < UInt16.size
    · rw [intern_of_new hs room] at h
      obtain ⟨_, rfl⟩ := EStateM.Result.ok.inj h
      rw [isSome_code?_push hs room, or_comm, eq_comm (a := s)]
    · rw [intern_of_full hs room] at h
      cases h

end Interner

namespace SymbolTable

variable {t t' : SymbolTable} {s : String} {c : UInt16}

/-- A local name gets a code; the namespaces stay as they are. -/
theorem isSome_code?_of_symbol (h : symbol s t = .ok c t') :
    (∀ x, (t'.names.code? x).isSome ↔ (t.names.code? x).isSome ∨ x = s) ∧
      t'.namespaces = t.namespaces := by
  change onNames (Interner.intern s) t = _ at h
  rw [onNames] at h
  split at h
  · next hi =>
    obtain ⟨rfl, rfl⟩ := EStateM.Result.ok.inj h
    exact ⟨Interner.isSome_code?_of_intern hi, rfl⟩
  · cases h

/-- A namespace gets a code unless it is empty; the names stay as they are. -/
theorem isSome_code?_of_namespaceSymbol (h : namespaceSymbol s t = .ok c t') :
    t'.names = t.names ∧ ∀ x, (t'.namespaces.code? x).isSome ↔
      (t.namespaces.code? x).isSome ∨ (x ≠ "" ∧ x = s) := by
  unfold namespaceSymbol at h
  split at h
  · next hempty =>
    -- The empty namespace gets no code.
    obtain ⟨_, rfl⟩ := EStateM.Result.ok.inj h
    subst hempty
    simp
  · next hempty =>
    rw [onNamespaces] at h
    split at h
    · next hi =>
      obtain ⟨rfl, rfl⟩ := EStateM.Result.ok.inj h
      refine ⟨rfl, fun x => (Interner.isSome_code?_of_intern hi x).trans (or_congr_right ?_)⟩
      exact ⟨fun hx => ⟨hx ▸ hempty, hx⟩, And.right⟩
    · cases h

end SymbolTable

/-- The texts that get codes with a key. -/
theorem Key.isSome_code?_of_ofName {t t' : SymbolTable} {kind : NameKind} {c : CollectionId}
    {q : QName} {k : Key} (h : ofName kind c q t = .ok k t') :
    (∀ x, (t'.names.code? x).isSome ↔
      (t.names.code? x).isSome ∨ (kind ≠ .attrId ∧ x = q.localName)) ∧
    ∀ x, (t'.namespaces.code? x).isSome ↔
      (t.namespaces.code? x).isSome ∨ (kind ≠ .attrId ∧ x ≠ "" ∧ x = q.namespaceUri) := by
  -- A key of the third family needs no codes.
  by_cases hk : kind = .attrId
  · subst hk
    obtain ⟨_, rfl⟩ := EStateM.Result.ok.inj h
    simp
  · rw [ofName_of_ne_attrId hk] at h
    obtain ⟨symbol, t₁, hsymbol, h⟩ := Action.bind_eq_ok_iff.mp h
    obtain ⟨ns, t₂, hns, h⟩ := Action.bind_eq_ok_iff.mp h
    obtain ⟨_, rfl⟩ := EStateM.Result.ok.inj h
    obtain ⟨hnames, hsame⟩ := SymbolTable.isSome_code?_of_symbol hsymbol
    obtain ⟨hsame', hnamespaces⟩ := SymbolTable.isSome_code?_of_namespaceSymbol hns
    refine ⟨fun x => ?_, fun x => ?_⟩
    · rw [hsame', hnames, and_iff_right hk]
    · rw [hnamespaces, hsame, and_iff_right hk]

/-- What an update does, by names: where values come to stand, what becomes of the blocks of its
document, and which texts get codes. -/
structure Effect where
  creates : NameKind → CollectionId → QName → Prop
  change : NameKind → CollectionId → QName → List Block → List Block
  names : String → Prop
  namespaces : String → Prop

namespace Effect

/-- Nothing is done. -/
def nothing : Effect where
  creates _ _ _ := False
  change _ _ _ bs := bs
  names _ := False
  namespaces _ := False

/-- One effect after the other. -/
def andThen (e e' : Effect) : Effect where
  creates kind c q := e.creates kind c q ∨ e'.creates kind c q
  change kind c q bs := e'.change kind c q (e.change kind c q bs)
  names s := e.names s ∨ e'.names s
  namespaces s := e.namespaces s ∨ e'.namespaces s

/-- The names with the key of `name` in the collection of the document. -/
def Under (document : Document) (name : QName) (kind : NameKind) (c : CollectionId) (q : QName) :
    Prop :=
  kind = name.kind ∧ c = document.collection ∧ Key.SameHeading name.kind name q

instance (document : Document) (name : QName) (kind : NameKind) (c : CollectionId) (q : QName) :
    Decidable (Under document name kind c q) :=
  inferInstanceAs (Decidable (_ ∧ _ ∧ _ ∧ (_ → _)))

/-- The blocks of the document under one name are changed. -/
def under (document : Document) (name : QName) (f : List Block → List Block) : Effect where
  creates := Under document name
  change kind c q bs := if Under document name kind c q then f bs else bs
  names s := name.kind ≠ .attrId ∧ s = name.localName
  namespaces s := name.kind ≠ .attrId ∧ s ≠ "" ∧ s = name.namespaceUri

/-- The blocks of the document under these names are changed, one name after the other. -/
def underAll (document : Document) (f : QName → List Block → List Block) (names : List QName) :
    Effect :=
  names.foldr (fun name e => (under document name (f name)).andThen e) nothing

/-- The blocks of the document vanish from its collection. -/
def drop (document : Document) : Effect :=
  { nothing with change := fun _ c _ bs => if c = document.collection then [] else bs }

/-- The effect on blocks of the document leads from one symbol table and store to another. -/
structure Leads (e : Effect) (doc : DocId) (t : SymbolTable) (s : Store) (t' : SymbolTable)
    (s' : Store) : Prop where
  present : ∀ kind c q, (s'.valueUnder t' kind c q).isSome ↔
    (s.valueUnder t kind c q).isSome ∨ e.creates kind c q
  own : ∀ kind c q, part doc (s'.blocksUnder t' kind c q) =
    e.change kind c q (part doc (s.blocksUnder t kind c q))
  others : ∀ d ≠ doc, ∀ kind c q, part d (s'.blocksUnder t' kind c q) =
    part d (s.blocksUnder t kind c q)
  names : ∀ x, (t'.names.code? x).isSome ↔ (t.names.code? x).isSome ∨ e.names x
  namespaces : ∀ x, (t'.namespaces.code? x).isSome ↔
    (t.namespaces.code? x).isSome ∨ e.namespaces x

variable {e e' : Effect} {doc : DocId} {t t' t'' : SymbolTable} {s s' s'' : Store}

/-- Doing nothing leads from anywhere to the same place. -/
theorem leads_nothing (doc : DocId) (t : SymbolTable) (s : Store) :
    nothing.Leads doc t s t s where
  present _ _ _ := (or_false _).symm ▸ Iff.rfl
  own _ _ _ := rfl
  others _ _ _ _ _ := rfl
  names _ := (or_false _).symm ▸ Iff.rfl
  namespaces _ := (or_false _).symm ▸ Iff.rfl

/-- One effect after the other leads where both do. -/
theorem Leads.trans (h : e.Leads doc t s t' s') (h' : e'.Leads doc t' s' t'' s'') :
    (e.andThen e').Leads doc t s t'' s'' where
  present kind c q := by rw [h'.present, h.present, or_assoc]; rfl
  own kind c q := by rw [h'.own, h.own]; rfl
  others d hd kind c q := by rw [h'.others d hd, h.others d hd]
  names x := by rw [h'.names, h.names, or_assoc]; rfl
  namespaces x := by rw [h'.namespaces, h.namespaces, or_assoc]; rfl

/-- Only the values matter. -/
theorem Leads.congr {s₁ : Store} (h : e.Leads doc t s t' s')
    (hs : ∀ key, s₁.value? key = s'.value? key) : e.Leads doc t s t' s₁ := by
  have hunder := Store.valueUnder_congr (t := t') hs
  refine ⟨fun kind c q => ?_, fun kind c q => ?_, fun d hd kind c q => ?_, h.names, h.namespaces⟩
  · rw [hunder]
    exact h.present kind c q
  · rw [Store.blocksUnder, hunder]
    exact h.own kind c q
  · rw [Store.blocksUnder, hunder]
    exact h.others d hd kind c q

section Formed

variable {document : Document} {name : QName} {k : Key} {bs bs' : List Block}
  {kind : NameKind} {c : CollectionId} {q : QName}

/-- The blocks under the names that have the key. -/
theorem blocksUnder_of_under (hs : s.KeysNamed t)
    (formed : Key.ofName name.kind document.collection name t = .ok k t')
    (h : Under document name kind c q) :
    s.blocksUnder t kind c q = blocksOf (s.value? k.toBytes) := by
  obtain ⟨hlookup, hext⟩ := Key.ofName_eq_ok formed
  obtain ⟨rfl, rfl, hheading⟩ := h
  rw [Store.blocksUnder, ← Store.valueUnder_of_extends hs hext,
    Store.valueUnder_of_lookup? ((Key.lookup?_of_sameHeading hheading).symm.trans hlookup)]

variable (hs : s.KeysNamed t)
  (formed : Key.ofName name.kind document.collection name t = .ok k t')
  (hstore : ∀ key, s'.value? key =
    if key = k.toBytes then some (Block.valueOf bs') else s.value? key)

include hs formed hstore

/-- A change of the value under the key of one name is one under the names that have the key. -/
theorem valueUnder_formed (kind : NameKind) (c : CollectionId) (q : QName) :
    s'.valueUnder t' kind c q = if Under document name kind c q then some (Block.valueOf bs')
      else s.valueUnder t kind c q := by
  obtain ⟨hlookup, hext⟩ := Key.ofName_eq_ok formed
  rw [Store.valueUnder_change hlookup hstore, Store.valueUnder_of_extends hs hext]
  rfl

/-- The blocks under a name, after its key was formed and its value replaced. -/
theorem blocksUnder_formed (hbs' : Block.Intact bs') (kind : NameKind) (c : CollectionId)
    (q : QName) : s'.blocksUnder t' kind c q =
      if Under document name kind c q then bs' else s.blocksUnder t kind c q := by
  rw [Store.blocksUnder, valueUnder_formed hs formed hstore]
  split
  · exact Index.blocksOf_valueOf hbs'
  · rfl

end Formed

/-- A change of the value under the key of one name is the effect under that name, if the blocks
of the document are changed by `f` and the others not. -/
theorem leads_under {document : Document} {name : QName} {k : Key} {bs bs' : List Block}
    {f : List Block → List Block} (hs : s.IntactFor t)
    (formed : Key.ofName name.kind document.collection name t = .ok k t')
    (hbs : blocksOf (s.value? k.toBytes) = bs) (hbs' : Block.Intact bs')
    (hstore : ∀ key, s'.value? key =
      if key = k.toBytes then some (Block.valueOf bs') else s.value? key)
    (hown : part document.id bs' = f (part document.id bs))
    (hothers : ∀ d ≠ document.id, part d bs' = part d bs) :
    (under document name f).Leads document.id t s t' s' := by
  obtain ⟨hnames, hnamespaces⟩ := Key.isSome_code?_of_ofName formed
  have hafter := blocksUnder_formed hs.keys formed hstore hbs'
  -- Where there are values, the blocks of the document, and those of the others.
  refine ⟨fun kind c q => ?_, fun kind c q => ?_, fun d hd kind c q => ?_, hnames, hnamespaces⟩
  · rw [valueUnder_formed hs.keys formed hstore]
    show _ ↔ _ ∨ Under document name kind c q
    split
    · next hunder => simp [hunder]
    · next hunder => simp [hunder]
  · rw [hafter]
    show _ = if Under document name kind c q then _ else _
    split
    · next hunder => rw [blocksUnder_of_under hs.keys formed hunder, hbs, hown]
    · rfl
  · rw [hafter]
    split
    · next hunder => rw [blocksUnder_of_under hs.keys formed hunder, hbs, hothers d hd]
    · rfl

end Effect

/-! ## The effects of the calls -/

namespace Block

variable {doc : DocId} {bs : List Block}

/-- What a removal leaves of the blocks of a document. -/
def remaining (doc : DocId) (removed : List NodeId) (bs : List Block) : List Block :=
  merged doc (survivors doc removed bs)

/-- The block of the survivors is one of the document. -/
theorem doc_of_mem_merged {es : List Entry} {b : Block} (hb : b ∈ merged doc es) : b.doc = doc := by
  unfold merged at hb
  split at hb
  · cases hb
  · rw [List.mem_singleton.mp hb]
    rfl

/-- Only blocks of the document have survivors. -/
theorem survivors_part (doc : DocId) (removed : List NodeId) (bs : List Block) :
    survivors doc removed (part doc bs) = survivors doc removed bs := by
  rw [survivors, survivors, entriesIn_eq_part, entriesIn_eq_part, part, part, List.filter_filter]
  simp only [Bool.and_self]

/-- What a removal leaves of a document depends on its own blocks. -/
theorem part_rewritten_self (doc : DocId) (removed : List NodeId) (bs : List Block) :
    part doc (rewritten doc removed bs) = remaining doc removed (part doc bs) := by
  rw [rewritten, part_append, part_others_self, List.nil_append, remaining, survivors_part]
  exact List.filter_eq_self.mpr fun b hb => by simpa using doc_of_mem_merged hb

/-- A removal leaves the blocks of the other documents. -/
theorem part_rewritten_of_ne {doc' : DocId} (h : doc' ≠ doc) (removed : List NodeId)
    (bs : List Block) : part doc' (rewritten doc removed bs) = part doc' bs := by
  have hmerged : part doc' (merged doc (survivors doc removed bs)) = [] :=
    part_eq_nil_iff.mpr fun b hb hdoc => h (hdoc.symm.trans (doc_of_mem_merged hb))
  rw [rewritten, part_append, part_others_of_ne h, hmerged, List.append_nil]

end Block

namespace Batch

/-- The blocks with the one that the nodes of a name are written as. -/
def withNodes (b : Batch) (name : QName) (bs : List Block) : List Block :=
  bs ++ [Block.ofEntries b.document.id b.order (NodeRef.entries ((b.nodes? name).getD []))]

/-- The blocks without the nodes of a name. -/
def withoutNodes (b : Batch) (name : QName) : List Block → List Block :=
  Block.remaining b.document.id (((b.nodes? name).getD []).map (·.node))

variable {b : Batch} {names : List QName} {t t' : SymbolTable} {s s' : Store}

/-- Commits have the effect of their names, one after the other. -/
theorem Commits.leads (hb : b.Fits) (h : b.Commits names t s t' s') (hs : s.IntactFor t) :
    (Effect.underAll b.document b.withNodes names).Leads b.document.id t s t' s' := by
  -- Induction on the commits; each has the effect of its name.
  induction h with
  | nil => exact Effect.leads_nothing _ _ _
  | @cons q names nodes k t t₁ t' s s' known formed accepted rest ih =>
    obtain ⟨bs, hbs, hvalue, _, hintact, hstore⟩ := hb.commit_blocks known accepted hs
    have hfirst : (Effect.under b.document q (b.withNodes q)).Leads b.document.id t s t₁
        (s.appended k.toBytes (b.blockOf nodes)) := by
      refine Effect.leads_under hs formed (Index.blocksOf_of_getD hbs hvalue) hintact hstore ?_ ?_
      · rw [Block.part_append, withNodes, known, Option.getD_some]
        exact congrArg _ (Block.part_cons_self _ [])
      · intro d hd
        rw [Block.part_append, Block.part_cons_of_ne (Ne.symm hd)]
        exact List.append_nil _
    exact hfirst.trans (ih (hb.intactFor_appended known formed accepted hs))

end Batch

namespace Index

section Removals

variable {i i' : Index}

/-- A removal has the effect of its name. -/
theorem leads_of_removeNodes {document : Document} {name : QName} {removed : List NodeId}
    (hs : i.store.IntactFor i.symbols) (hfits : i.RemovalFits document name removed)
    (h : removeNodes document name removed i = .ok () i') :
    (Effect.under document name (Block.remaining document.id removed)).Leads document.id
      i.symbols i.store i'.symbols i'.store := by
  obtain ⟨k, bs, formed, hbs, hvalue, hlength, hstore⟩ := removeNodes_blocks hs hfits h
  exact Effect.leads_under hs formed (blocksOf_of_getD hbs hvalue) (hbs.rewritten hlength) hstore
    (Block.part_rewritten_self _ _ _) fun d hd => Block.part_rewritten_of_ne hd _ _

/-- Removals have the effect of their names, one after the other. -/
theorem Removals.leads {b : Batch} {names : List QName} (h : Removals b names i i')
    (hfits : RemovalsFit b names i) (hs : i.store.IntactFor i.symbols) :
    (Effect.underAll b.document b.withoutNodes names).Leads b.document.id i.symbols i.store
      i'.symbols i'.store := by
  -- Induction on the removals; each has the effect of its name.
  induction h with
  | nil => exact Effect.leads_nothing _ _ _
  | @cons q names nodes i i₁ i' known removed rest ih =>
    obtain ⟨hfirst, hrest⟩ := hfits nodes known
    have hhere := leads_of_removeNodes hs hfirst removed
    have hwithout : b.withoutNodes q = Block.remaining b.document.id (nodes.map (·.node)) := by
      rw [Batch.withoutNodes, known, Option.getD_some]
    rw [← hwithout] at hhere
    exact hhere.trans (ih (hrest i₁ removed) (intactFor_of_removeNodes hs hfirst removed))

end Removals

/-- A document that was dropped has no blocks in its collection any more. -/
theorem leads_of_cutOut {document : Document} {i i' : Index}
    (hs : i.store.IntactFor i.symbols) (hsymbols : i'.symbols = i.symbols)
    (h : Store.ChangedAt (cutOut document) (KeysOf NameKind.all document.collection)
      i.store i'.store) :
    (Effect.drop document).Leads document.id i.symbols i.store i'.symbols i'.store := by
  have hunder : ∀ kind c q, i'.store.valueUnder i'.symbols kind c q =
      if c = document.collection then cutOut document (i.store.valueUnder i.symbols kind c q)
      else i.store.valueUnder i.symbols kind c q := by
    intro kind c q
    simp only [hsymbols, Store.valueUnder_changedAt rfl h, mem_all, and_true]
  -- What is cut out of a value are the blocks of the document.
  have hblocks : ∀ kind c q, blocksOf (cutOut document (i.store.valueUnder i.symbols kind c q)) =
      Block.others document.id (i.store.blocksUnder i.symbols kind c q) := by
    intro kind c q
    cases hk : Key.lookup? i.symbols kind c q with
    | none =>
      rw [Store.blocksUnder, Store.valueUnder_of_lookup?_eq_none hk]
      rfl
    | some k =>
      rw [Store.blocksUnder, Store.valueUnder_of_lookup? hk, blocksOf_cutOut hs.values]
  -- Values stay values, the document is gone, the others and the codes are as they were.
  refine ⟨fun kind c q => ?_, fun kind c q => ?_, fun d hd kind c q => ?_, fun x => ?_, fun x => ?_⟩
  · show _ ↔ _ ∨ False
    rw [hunder, or_false]
    split
    · rw [cutOut, Option.isSome_map]
    · rfl
  · rw [Store.blocksUnder, hunder]
    show _ = if c = document.collection then [] else _
    split
    · rw [hblocks, Block.part_others_self]
    · rfl
  · rw [Store.blocksUnder, hunder]
    split
    · rw [hblocks, Block.part_others_of_ne hd]
    · rfl
  · show _ ↔ _ ∨ False
    rw [hsymbols, or_false]
  · show _ ↔ _ ∨ False
    rw [hsymbols, or_false]

namespace Op

/-- The document that a call is about, if it is about one. -/
def document? : Op → Option Document
  | flush batch => some batch.document
  | removeNodes document _ _ => some document
  | removeBatch batch => some batch.document
  | dropDocument document _ => some document
  | dropCollection _ => none

/-- What a call for one document does. -/
def effect : Op → Effect
  | flush batch => .underAll batch.document batch.withNodes batch.names
  | removeNodes document name removed =>
    .under document name (Block.remaining document.id removed)
  | removeBatch batch => .underAll batch.document batch.withoutNodes batch.names
  | dropDocument document _ => .drop document
  | dropCollection _ => .nothing

/-- A call for one document that succeeds has its effect. -/
theorem leads {op : Op} {document : Document} {i i' : Index}
    (hdocument : op.document? = some document) (hs : i.store.IntactFor i.symbols)
    (hfits : op.Fits i) (h : op.run i = .ok () i') :
    op.effect.Leads document.id i.symbols i.store i'.symbols i'.store := by
  have hdoes := op.does_run i
  rw [h] at hdoes
  -- The cases that do not fail, each for its own document.
  cases hdoes with
  | flushed commits same =>
    obtain rfl := Option.some.inj hdocument
    exact (commits.leads hfits hs).congr same.value?
  | removed h =>
    obtain rfl := Option.some.inj hdocument
    exact leads_of_removeNodes hs hfits h
  | batchRemoved removals =>
    obtain rfl := Option.some.inj hdocument
    exact removals.leads hfits hs
  | dropped symbols changed =>
    obtain rfl := Option.some.inj hdocument
    exact leads_of_cutOut hs symbols changed
  | cleared symbols changed => cases hdocument

end Op

end Index

end XmlIndex
