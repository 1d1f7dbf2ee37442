import Mathlib
import XmlIndex.Proofs.BlockRewriting
import XmlIndex.Proofs.FlushResume
import XmlIndex.Proofs.StoredValues
import XmlIndex.Proofs.SymbolRoom

/-! # First loads

A batch tells names apart by all they are made of, a store by their keys, and a key has neither
the qualifier nor, in the third family, the namespace (`QName.SharesKey`).  A first load refuses
a second block of its document under one key, even if the first one is its own.

So a first load of a new document, with nothing in its way and codes for its names, goes through
exactly if no two of its names share a key, and then it has written all of its batch
(`Index.flush_firstLoad_iff`).  A document that uses two qualifiers for one namespace cannot be
loaded as long as they stand at the same local name (`Index.flush_twoQualifiers_eq_error`). -/

namespace XmlIndex

/-- The names have one key in every collection. -/
def QName.SharesKey (q q' : QName) : Prop := q.kind = q'.kind ∧ Key.SameHeading q.kind q q'

instance (q q' : QName) : Decidable (q.SharesKey q') := by
  unfold QName.SharesKey Key.SameHeading
  infer_instance

/-! ## Batches of a first load -/

namespace Batch

variable {b b' : Batch} {nodes : List (QName × NodeRef)}

/-- The batch with these nodes, registered one after the other. -/
def registerAll (b : Batch) (nodes : List (QName × NodeRef)) : Except Error Batch :=
  nodes.foldlM (fun b entry => b.register entry.1 entry.2) b

/-- Registering a node changes neither the document nor how it is to be written. -/
theorem register_eq_ok {name : QName} {node : NodeRef} (h : b.register name node = .ok b') :
    b'.document = b.document ∧ b'.order = b.order := by
  rw [register] at h
  split at h
  · cases h
  · obtain rfl := Except.ok.inj h
    exact ⟨rfl, rfl⟩

/-- Registering nodes changes neither the document nor how it is to be written. -/
theorem registerAll_eq_ok (h : b.registerAll nodes = .ok b') :
    b'.document = b.document ∧ b'.order = b.order := by
  -- Induction on the nodes, from whatever batch the first one leaves.
  induction nodes generalizing b with
  | nil =>
    obtain rfl := Except.ok.inj h
    exact ⟨rfl, rfl⟩
  | cons entry nodes ih =>
    rw [registerAll, List.foldlM_cons] at h
    cases hentry : b.register entry.1 entry.2 with
    | error e =>
      rw [hentry] at h
      cases h
    | ok b₁ =>
      rw [hentry] at h
      obtain ⟨hdocument, horder⟩ := register_eq_ok hentry
      obtain ⟨hdocument', horder'⟩ := ih h
      exact ⟨hdocument'.trans hdocument, horder'.trans horder⟩

/-- The number of nodes of a name. -/
def countOf (b : Batch) (name : QName) : Nat := ((b.nodes? name).getD []).length

/-- The nodes of a batch are those of its names. -/
theorem nodeCount_eq (b : Batch) : b.nodeCount = (b.names.map b.countOf).sum := by
  rw [nodeCount, ← List.sum_eq_foldl, SortedMap.values, names, SortedMap.keys, List.map_map,
    List.map_map]
  congr 1
  refine List.map_congr_left fun entry hentry => ?_
  have hnodes : b.nodes? entry.1 = some entry.2 := SortedMap.mem_entries_iff.mp hentry
  simp [countOf, hnodes]

end Batch

/-! ## Blocks behind other blocks -/

namespace Block

/-- A written block starts with one that is well framed, also if its body is longer than the
length field can say. -/
theorem exists_wellFramed_front (doc : DocId) (order : BlockOrder) (es : List Entry) :
    ∃ (b : Block) (rest : Bytes),
      b.WellFramed ∧ b.doc = doc ∧ encode doc order es = b.raw ++ rest := by
  have hbound : Bytes.bound 4 = 2 ^ 32 := rfl
  have hlength := Input.takes_fixed32 (Bytes.length_littleEndian 4 (Entry.encodeBody es).length)
  rw [Bytes.ofLittleEndian_littleEndian, hbound] at hlength
  -- The reader takes as much of the body as the length field says.
  have hbody : ((Entry.encodeBody es).take ((Entry.encodeBody es).length % 2 ^ 32)).length =
      (UInt32.ofNat ((Entry.encodeBody es).length % 2 ^ 32)).toNat := by
    rw [List.length_take_of_le (Nat.mod_le _ _), UInt32.toNat_ofNat', Nat.mod_mod]
  have htakes := takes_read (Input.takes_varint doc) (Input.takes_byte order.toByte)
    (BlockOrder.ofByte_toByte order) (Input.takes_varint (UInt32.ofNat es.length)) hlength hbody
  refine ⟨{ doc, order, count := _, byteLength := _, raw := _, body := _ },
    (Entry.encodeBody es).drop ((Entry.encodeBody es).length % 2 ^ 32), htakes, rfl, ?_⟩
  simp only [encode, encodeHeader, List.append_assoc, List.take_append_drop]

end Block

namespace Framing

variable {f : Framing}

/-- A value with a block of the document is refused, also if it has a fault. -/
theorem requireNoBlockOf_ne_ok {b : Block} {key : Key} (hb : b ∈ f.blocks) :
    f.requireNoBlockOf b.doc key ≠ .ok () := by
  intro h
  have hblocks : (⟨f.blocks, none⟩ : Framing).requireNoBlockOf b.doc key = .ok () :=
    fold_eq_ok_iff.mpr ⟨rfl, (fold_eq_ok_iff.mp h).2⟩
  exact requireNoBlockOf_eq_ok_iff.mp hblocks b hb rfl

end Framing

namespace Store

variable {s : Store} {doc : DocId} {key : Key}

/-- The value under the key, if there is one, is well framed and has no block of the document. -/
def IsFreshUnder (s : Store) (key : Key) (doc : DocId) : Prop :=
  ∀ value, s.value? key.toBytes = some value →
    ∃ bs, Block.scan value = ⟨bs, none⟩ ∧ ∀ b ∈ bs, b.doc ≠ doc

/-- The values under the keys of the document's collection are well framed, and the document
has no block there. -/
def IsFreshFor (s : Store) (document : Document) : Prop :=
  ∀ key : Key, key.collection = document.collection → s.IsFreshUnder key document.id

/-- The value under the key begins with a block of the document, behind well-framed others. -/
def HasBlockUnder (s : Store) (key : Key) (doc : DocId) : Prop :=
  ∃ bs b rest, s.value? key.toBytes = some (Block.valueOf (bs ++ [b]) ++ rest) ∧
    (∀ b' ∈ bs ++ [b], b'.WellFramed) ∧ b.doc = doc

/-- A value without a block of the document accepts one. -/
theorem IsFreshUnder.accepts (h : s.IsFreshUnder key doc) (order : BlockOrder) :
    s.Accepts key doc order := by
  intro _ value hvalue
  obtain ⟨bs, hscan, hnone⟩ := h value hvalue
  rw [hscan]
  exact Framing.requireNoBlockOf_eq_ok_iff.mpr hnone

/-- A value with a block of the document refuses one in order. -/
theorem HasBlockUnder.not_accepts (h : s.HasBlockUnder key doc) : ¬ s.Accepts key doc .ordered := by
  obtain ⟨bs, b, rest, hvalue, hw, rfl⟩ := h
  intro haccepts
  obtain ⟨j, -, -, hscan⟩ := Block.exists_scanFrom_append (i := .ofBytes _) rfl hw
  refine Framing.requireNoBlockOf_ne_ok ?_ (haccepts rfl _ hvalue)
  rw [Block.scan, hscan]
  simp

/-- What is put under another key changes nothing. -/
theorem IsFreshUnder.appended {key' : Key} (h : s.IsFreshUnder key doc) (hne : key ≠ key')
    (fragment : Bytes) : (s.appended key'.toBytes fragment).IsFreshUnder key doc := by
  intro value hvalue
  rw [value?_appended, if_neg fun he => hne (Key.toBytes_inj he)] at hvalue
  exact h value hvalue

/-- The block that was written is there. -/
theorem IsFreshUnder.hasBlockUnder (h : s.IsFreshUnder key doc) (order : BlockOrder)
    (es : List Entry) :
    (s.appended key.toBytes (Block.encode doc order es)).HasBlockUnder key doc := by
  obtain ⟨b, rest, hb, hdoc, hencode⟩ := Block.exists_wellFramed_front doc order es
  -- Whatever was there is made of blocks.
  have hvalue : ∃ bs, (s.value? key.toBytes).getD [] = Block.valueOf bs ∧
      ∀ b ∈ bs, b.WellFramed := by
    cases hv : s.value? key.toBytes with
    | none => exact ⟨[], rfl, fun _ hmem => absurd hmem List.not_mem_nil⟩
    | some value =>
      obtain ⟨bs, hscan, _⟩ := h value hv
      exact ⟨bs, Block.scan_eq_iff.mp hscan⟩
  obtain ⟨bs, hfront, hw⟩ := hvalue
  refine ⟨bs, b, rest, ?_, List.forall_mem_append.mpr ⟨hw, List.forall_mem_singleton.mpr hb⟩, hdoc⟩
  rw [value?_appended, if_pos rfl, hfront, hencode]
  simp

/-- A block stays where it is when more is put behind it or elsewhere. -/
theorem HasBlockUnder.appended (h : s.HasBlockUnder key doc) (key' fragment : Bytes) :
    (s.appended key' fragment).HasBlockUnder key doc := by
  obtain ⟨bs, b, rest, hvalue, hw, hdoc⟩ := h
  by_cases hk : key.toBytes = key'
  · refine ⟨bs, b, rest ++ fragment, ?_, hw, hdoc⟩
    rw [value?_appended, if_pos hk, ← hk, hvalue, Option.getD_some, List.append_assoc]
  · exact ⟨bs, b, rest, by rw [value?_appended, if_neg hk, hvalue], hw, hdoc⟩

end Store

/-! ## Which first loads can be committed -/

namespace Batch

section Commits

variable {b : Batch} {names : List QName} {t t' : SymbolTable} {s s' : Store}

/-- The document has no block under the keys of these names, once they have their codes. -/
def FreshNames (b : Batch) (names : List QName) (t : SymbolTable) (s : Store) : Prop :=
  ∀ q ∈ names, ∀ t', t'.Extends t → ∀ k,
    Key.lookup? t' q.kind b.document.collection q = some k → s.IsFreshUnder k b.document.id

/-- A document that is new is new under all names. -/
theorem freshNames_of_isFreshFor (h : s.IsFreshFor b.document) (names : List QName)
    (t : SymbolTable) : b.FreshNames names t s :=
  fun _ _ _ _ _ hk => h _ (Key.kind_of_lookup? hk).2

/-- A name that shares no key with the others leaves them fresh. -/
theorem FreshNames.appended {q : QName} {k : Key} (h : b.FreshNames (q :: names) t s)
    (hdiffers : ∀ q' ∈ names, ¬ q.SharesKey q')
    (hof : Key.ofName q.kind b.document.collection q t = .ok k t') (fragment : Bytes) :
    b.FreshNames names t' (s.appended k.toBytes fragment) := by
  obtain ⟨hlookup, hext⟩ := Key.ofName_eq_ok hof
  intro q' hq' t'' hext' k' hk'
  have hfresh := h q' (List.mem_cons_of_mem q hq') t'' (hext'.trans hext) k' hk'
  refine hfresh.appended (fun he => hdiffers q' hq' ?_) fragment
  -- One key would be the key of both names.
  obtain ⟨hkind, _, hheading⟩ := Key.lookup?_inj (Key.lookup?_of_extends hext' hlookup) (he ▸ hk')
  exact ⟨hkind, hheading⟩

/-- Names that share no key can be committed. -/
theorem exists_commits (hknown : ∀ q ∈ names, q ∈ b.names) (hroom : t.HasRoomFor names)
    (hfresh : b.FreshNames names t s) (hdiffer : names.Pairwise fun q q' => ¬ q.SharesKey q') :
    ∃ t' s', b.Commits names t s t' s' := by
  -- Induction on the names: the block of the first is under no key of the others.
  induction names generalizing t s with
  | nil => exact ⟨t, s, .nil⟩
  | cons q names ih =>
    obtain ⟨hq, hnames⟩ := List.forall_mem_cons.mp hknown
    obtain ⟨hfirst, hrest⟩ := List.pairwise_cons.mp hdiffer
    obtain ⟨nodes, hnodes⟩ := Option.isSome_iff_exists.mp (mem_names_iff.mp hq)
    obtain ⟨k, t₁, hof, hroom₁⟩ := Key.exists_ofName b.document.collection hroom
    obtain ⟨hlookup, hext⟩ := Key.ofName_eq_ok hof
    have haccepts := (hfresh q List.mem_cons_self t₁ hext k hlookup).accepts b.order
    obtain ⟨t', s', hcommits⟩ := ih hnames hroom₁ (hfresh.appended hfirst hof _) hrest
    exact ⟨t', s', .cons hnodes hof haccepts hcommits⟩

/-- Where the document has a block, no name with that key is committed in order. -/
theorem Commits.not_sharesKey {q : QName} {k : Key} (h : b.Commits names t s t' s')
    (ho : b.order = .ordered) (hk : Key.lookup? t q.kind b.document.collection q = some k)
    (hblock : s.HasBlockUnder k b.document.id) : ∀ q' ∈ names, ¬ q.SharesKey q' := by
  induction h with
  | nil => exact fun _ hmem => absurd hmem List.not_mem_nil
  | @cons q₁ names nodes k₁ t t₁ t' s s' known formed accepted rest ih =>
    obtain ⟨hlookup, hext⟩ := Key.ofName_eq_ok formed
    have hk₁ := Key.lookup?_of_extends hext hk
    refine List.forall_mem_cons.mpr ⟨?_, ih hk₁ (hblock.appended _ _)⟩
    rintro ⟨hkind, hheading⟩
    -- The name would have the key under which the block is.
    rw [← hkind, ← Key.lookup?_of_sameHeading hheading, hk₁] at hlookup
    obtain rfl := Option.some.inj hlookup
    rw [ho] at accepted
    exact hblock.not_accepts accepted

/-- Names that are committed in order, for a document without blocks, share no key. -/
theorem Commits.pairwise_not_sharesKey (h : b.Commits names t s t' s') (ho : b.order = .ordered)
    (hfresh : b.FreshNames names t s) : names.Pairwise fun q q' => ¬ q.SharesKey q' := by
  induction h with
  | nil => exact .nil
  | @cons q names nodes k t t₁ t' s s' known formed accepted rest ih =>
    obtain ⟨hlookup, hext⟩ := Key.ofName_eq_ok formed
    -- The document was new, so the block under the key of this name was written by this very flush.
    have hunder := hfresh q List.mem_cons_self t₁ hext k hlookup
    have hdiffers := rest.not_sharesKey ho hlookup (hunder.hasBlockUnder b.order _)
    exact List.pairwise_cons.mpr ⟨hdiffers, ih (hfresh.appended hdiffers formed _)⟩

end Commits

end Batch

/-! ## What a flush reports -/

namespace Index

section Summary

variable {b : Batch} {name : QName} {names : List QName} {done : Nat} {f f' : Flushing}
  {nodes : List NodeRef} {d : Disturbance}

/-- A name that is written counts with all of its nodes. -/
theorem summary_of_flushName (hn : f.batch.nodes? name = some nodes)
    (h : flushName name done f = .ok () f') :
    f'.summary = ⟨f.summary.names + 1, f.summary.nodes + nodes.length⟩ := by
  obtain ⟨_, _, hget, hrest⟩ := Action.bind_eq_ok_iff.mp h
  obtain ⟨rfl, rfl⟩ := EStateM.Result.ok.inj hget
  obtain ⟨k, f₁, hkey, hrest⟩ := Action.bind_eq_ok_iff.mp hrest
  obtain ⟨t, _, rfl⟩ := onIndex_keyOf_eq_ok_iff.mp hkey
  obtain ⟨_, _, hget, hrest⟩ := Action.bind_eq_ok_iff.mp hrest
  obtain ⟨rfl, rfl⟩ := EStateM.Result.ok.inj hget
  simp only [hn, flushNodes] at hrest
  split at hrest
  · cases hrest
  · obtain ⟨_, rfl⟩ := EStateM.Result.ok.inj hrest
    -- Sorting drops no node.
    show FlushSummary.mk _ (_ + (NodeRef.sort nodes).length) = _
    rw [(NodeRef.perm_sort nodes).length_eq]

/-- A flush counts the names it has written and their nodes. -/
theorem summary_of_flushNames (hr : b.Remains f.batch names)
    (h : flushNamesAmid d names done f = .ok () f') :
    f'.summary = ⟨f.summary.names + names.length,
      f.summary.nodes + (names.map b.countOf).sum⟩ := by
  induction names generalizing done f with
  | nil =>
    obtain ⟨_, rfl⟩ := EStateM.Result.ok.inj h
    rfl
  | cons name names ih =>
    obtain ⟨_, f₁, hdisturb, hrest⟩ := Action.bind_eq_ok_iff.mp h
    obtain ⟨_, rfl⟩ := EStateM.Result.ok.inj hdisturb
    obtain ⟨_, f₂, hname, hrest⟩ := Action.bind_eq_ok_iff.mp hrest
    have hr₁ : b.Remains (disturbed d done f).batch (name :: names) := hr
    obtain ⟨before, after, hbefore, hafter, hsort⟩ := hr₁.nodes_of_mem List.mem_cons_self
    -- The nodes may be in another order by now, but there are as many of them.
    have hcount : after.length = b.countOf name := by
      rw [Batch.countOf, hbefore, Option.getD_some, ← (NodeRef.perm_sort after).length_eq, hsort,
        (NodeRef.perm_sort before).length_eq]
    have hsummary := summary_of_flushName hafter hname
    rw [ih (remains_of_flushName hr₁ hname) hrest, hsummary, hcount]
    simp only [disturbed, List.length_cons, List.map_cons, List.sum_cons, FlushSummary.mk.injEq]
    omega

/-- A flush that succeeds has counted the whole batch and emptied it. -/
theorem flush_eq_ok {i : Index} {summary : FlushSummary}
    (h : flush (flushing i b) = .ok summary f') :
    f'.batch.isEmpty ∧ summary.names = b.size ∧ summary.nodes = b.nodeCount := by
  rw [← flushAmid_none] at h
  obtain ⟨_, _, _, hremains⟩ := flushAmid_eq_ok h
  have hempty := Batch.isEmpty_iff.mpr hremains.names_eq
  have hlength : b.names.length = b.size := List.length_map _
  refine ⟨hempty, ?_⟩
  rw [Batch.nodeCount_eq, ← hlength]
  -- An empty batch is not flushed at all.
  cases hb : b.isEmpty with
  | true =>
    rw [flushAmid_of_isEmpty hb] at h
    obtain ⟨rfl, rfl⟩ := EStateM.Result.ok.inj h
    rw [Batch.isEmpty_iff.mp hb]
    exact ⟨rfl, rfl⟩
  | false =>
    rw [flushAmid_of_names hb] at h
    split at h
    · next f₁ hrun =>
      obtain ⟨rfl, rfl⟩ := EStateM.Result.ok.inj h
      -- The counts are those of the whole run over the names.
      have hsummary := summary_of_flushNames (f := begun (flushing i b)) b.remains_self hrun
      rw [hsummary]
      simp [begun, flushing]
    · cases h

end Summary

/-! ## First loads -/

section FirstLoad

variable {document : Document} {nodes : List (QName × NodeRef)} {b : Batch} {i : Index}

/-- What a flush has written in order, of a document without blocks, shares no key. -/
theorem pairwise_not_sharesKey_of_flush {summary : FlushSummary} {f' : Flushing}
    (ho : b.order = .ordered) (hfresh : i.store.IsFreshFor b.document)
    (h : flush (flushing i b) = .ok summary f') :
    b.names.Pairwise fun q q' => ¬ q.SharesKey q' := by
  rw [← flushAmid_none] at h
  obtain ⟨s, hcommits, _, _⟩ := flushAmid_eq_ok h
  exact hcommits.pairwise_not_sharesKey ho (Batch.freshNames_of_isFreshFor hfresh _ _)

/-- A first load of a new document goes through exactly if no two of its names share a key, and
then its batch is empty and all of its names and nodes are counted.  The store is open, and
there are codes for the names. -/
theorem flush_firstLoad_iff (hb : (Batch.firstLoad document).registerAll nodes = .ok b)
    (ho : i.store.Open) (hfresh : i.store.IsFreshFor document)
    (hroom : i.symbols.HasRoomFor b.names) :
    ((∃ summary f', flush (flushing i b) = .ok summary f') ↔
      b.names.Pairwise fun q q' => ¬ q.SharesKey q') ∧
    ∀ summary f', flush (flushing i b) = .ok summary f' →
      f'.batch.isEmpty ∧ summary.names = b.size ∧ summary.nodes = b.nodeCount := by
  obtain ⟨hdocument, horder⟩ := Batch.registerAll_eq_ok hb
  have hfresh' : i.store.IsFreshFor b.document := hdocument.symm ▸ hfresh
  refine ⟨⟨fun ⟨_, _, h⟩ => pairwise_not_sharesKey_of_flush horder hfresh' h, fun hdiffer => ?_⟩,
    fun _ _ h => flush_eq_ok h⟩
  -- Names that share no key can all be committed, and nothing else is in the way.
  obtain ⟨t', s', hcommits⟩ := Batch.exists_commits (fun _ hq => hq) hroom
    (Batch.freshNames_of_isFreshFor hfresh' b.names i.symbols) hdiffer
  obtain ⟨summary, f', hflush, _⟩ :=
    flush_of_commits (f := flushing i b) ho (.refl i.store) hcommits
  exact ⟨summary, f', hflush⟩

end FirstLoad

/-- A document that is not in the empty index. -/
def newcomer : Document := ⟨1, 1, "/db/c1/d1.xml"⟩

/-- The empty index has no block of it. -/
theorem isFreshFor_fresh : fresh.store.IsFreshFor newcomer := by
  intro key _ value hvalue
  rw [Store.value?_of_empty rfl] at hvalue
  cases hvalue

/-- Nodes whose names have one local part, in two families and in two namespaces. -/
def oneLocalName : List (QName × NodeRef) :=
  [({ localName := "id" }, { doc := 1, node := ⟨[1, 2]⟩ }),
    ({ localName := "id", kind := .attrId }, { doc := 1, node := ⟨[1, 1]⟩ }),
    ({ localName := "id", namespaceUri := "urn:u" }, { doc := 1, node := ⟨[1, 3]⟩ }),
    ({ localName := "id" }, { doc := 1, node := ⟨[1]⟩ })]

/-- Three names with one local part share no key, and are loaded. -/
theorem flush_oneLocalName : ∃ b,
    (Batch.firstLoad newcomer).registerAll oneLocalName = .ok b ∧ fresh.store.Open ∧
      fresh.store.IsFreshFor newcomer ∧ fresh.symbols.HasRoomFor b.names ∧
      ∃ summary f', flush (flushing fresh b) = .ok summary f' ∧
        summary.names = 3 ∧ summary.nodes = 4 := by
  obtain ⟨b, hb, hnames, hcount⟩ : ∃ b, (Batch.firstLoad newcomer).registerAll oneLocalName =
      .ok b ∧ b.names = [{ localName := "id" }, { localName := "id", kind := .attrId },
        { localName := "id", namespaceUri := "urn:u" }] ∧ b.nodeCount = 4 := ⟨_, rfl, rfl, rfl⟩
  have hroom : fresh.symbols.HasRoomFor b.names := by
    rw [hnames]
    constructor <;> exact Interner.hasRoomFor_empty (by decide)
  have ho : fresh.store.Open := ⟨rfl, rfl, fun _ => rfl⟩
  -- The keys differ by family or namespace code, so no two of the names clash.
  obtain ⟨hiff, hcounts⟩ := flush_firstLoad_iff hb ho isFreshFor_fresh hroom
  obtain ⟨summary, f', hflush⟩ := hiff.mpr (by rw [hnames]; decide)
  obtain ⟨_, hsummary, hnodes⟩ := hcounts summary f' hflush
  have hsize : b.size = b.names.length := (List.length_map _).symm
  rw [hsize, hnames] at hsummary
  exact ⟨b, hb, ho, isFreshFor_fresh, hroom, summary, f', hflush, hsummary, hnodes.trans hcount⟩

/-- Nodes of one name, which is written with two qualifiers. -/
def twoQualifiers : List (QName × NodeRef) :=
  [({ localName := "a", qualifier := some "x" }, { doc := 1, node := ⟨[1]⟩ }),
    ({ localName := "a", qualifier := some "y" }, { doc := 1, node := ⟨[1, 1]⟩ })]

/-- A first load fails if a name is written with two qualifiers, though the document is new and
nothing else stands in the way. -/
theorem flush_twoQualifiers_eq_error : ∃ b,
    (Batch.firstLoad newcomer).registerAll twoQualifiers = .ok b ∧ fresh.store.Open ∧
      fresh.store.IsFreshFor newcomer ∧ fresh.symbols.HasRoomFor b.names ∧
      ∃ e f', flush (flushing fresh b) = .error e f' := by
  obtain ⟨b, hb, hnames⟩ : ∃ b, (Batch.firstLoad newcomer).registerAll twoQualifiers = .ok b ∧
      b.names = [{ localName := "a", qualifier := some "x" },
        { localName := "a", qualifier := some "y" }] := ⟨_, rfl, rfl⟩
  have hroom : fresh.symbols.HasRoomFor b.names := by
    rw [hnames]
    constructor <;> exact Interner.hasRoomFor_empty (by decide)
  refine ⟨b, hb, ⟨rfl, rfl, fun _ => rfl⟩, isFreshFor_fresh, hroom, ?_⟩
  obtain ⟨hdocument, horder⟩ := Batch.registerAll_eq_ok hb
  cases hflush : flush (flushing fresh b) with
  | error e f' => exact ⟨e, f', rfl⟩
  | ok summary f' =>
    -- Success would mean that the two names share no key.
    have hfresh : fresh.store.IsFreshFor b.document := hdocument.symm ▸ isFreshFor_fresh
    have hdiffer := pairwise_not_sharesKey_of_flush horder hfresh hflush
    rw [hnames] at hdiffer
    exact absurd hdiffer (by decide)

end Index

end XmlIndex
