import Mathlib
import XmlIndex.Proofs.FlushResume
import XmlIndex.Proofs.QueryVisits
import XmlIndex.Proofs.StoreAccess

/-! # Whether what is written can be read

A block is written without a look at its node ids, but not every id is read back: an id without a
level is the closing mark, and an ordinal zero is refused.  So a written block decodes exactly if
all of its nodes are proper (`Block.entries_ofEntries_ok_iff`).

A flush that succeeds leaves every value framed, with its blocks behind those that were there
(`Batch.Commits.scan_value?`).  Whether the names it has written can be asked for afterwards depends
on the node ids alone, which nobody has looked at: `Index.flush_readable_iff`. -/

namespace XmlIndex

open Input

/-! ## Reading an improper id -/

namespace NodeId

variable {i i' : Input} {rest : Bytes}

/-- Ordinals that are read are not zero, and what is read are the ordinals written. -/
theorem zero_not_mem_of_readLevels {levels ls : List UInt32}
    (hr : i.rest = levels.flatMap Varint.encode ++ rest)
    (h : readLevels levels.length i = .ok ls i') : 0 ∉ levels := by
  -- Induction on the ordinals; each is read as it was written, and a zero is refused.
  induction levels generalizing i ls i' with
  | nil => exact List.not_mem_nil
  | cons level levels ih =>
    rw [List.flatMap_cons, List.append_assoc] at hr
    obtain ⟨i₁, hx, _, hr₁⟩ := takes_varint level i _ hr
    obtain ⟨v, i₂, hv, h⟩ := Action.bind_eq_ok_iff.mp h
    obtain ⟨rfl, rfl⟩ := EStateM.Result.ok.inj (hx.symm.trans hv)
    by_cases hz : level = 0
    · subst hz
      cases h
    · simp only [hz, if_false] at h
      obtain ⟨ls', i₃, hls, _⟩ := Action.bind_eq_ok_iff.mp h
      rw [List.mem_cons, not_or]
      exact ⟨fun h0 => hz h0.symm, ih hr₁ hls⟩

/-- An id that is read back has no ordinal zero. -/
theorem zero_not_mem_of_read {n n' : NodeId} (hlen : n.levels.length < UInt32.size)
    (hr : i.rest = n.encode ++ rest) (h : read i = .ok n' i') : 0 ∉ n.levels := by
  -- The number of levels is written without loss.
  have hcount : (UInt32.ofNat n.levels.length).toNat = n.levels.length := by
    rw [UInt32.toNat_ofNat', Nat.mod_eq_of_lt hlen]
  rw [encode, List.append_assoc] at hr
  obtain ⟨i₁, hx, _, hr₁⟩ := takes_varint _ i _ hr
  obtain ⟨count, i₂, hv, h⟩ := Action.bind_eq_ok_iff.mp h
  obtain ⟨rfl, rfl⟩ := EStateM.Result.ok.inj (hx.symm.trans hv)
  rw [hcount] at h
  exact zero_not_mem_of_readLevels hr₁ (readCounted_eq_ok h)

end NodeId

namespace Entry

variable {i i' : Input} {rest : Bytes} {es es' : List Entry}

/-- Where an entry was written, an entry is read only if its node is proper. -/
theorem valid_of_read? {e e' : Entry} (hlen : e.node.levels.length < UInt32.size)
    (hr : i.rest = e.encode ++ rest) (h : read? i = .ok (some e') i') : e.node.Valid := by
  rw [encode, List.append_assoc] at hr
  refine ⟨fun hnil => ?_, ?_⟩
  · -- Without a level it is the closing mark that stands there.
    have hend : e.node = NodeId.endOfDocument := by
      cases hnode : e.node
      rw [hnode] at hnil
      exact congrArg NodeId.mk hnil
    rw [hend, NodeId.encode_endOfDocument] at hr
    obtain ⟨i₁, hx, _⟩ := takes_read?_encodeEnd i _ hr
    rw [hx] at h
    cases (EStateM.Result.ok.inj h).1
  -- A zero among the levels would have been refused.
  · obtain ⟨n, i₁, hn, _⟩ := Action.bind_eq_ok_iff.mp h
    exact NodeId.zero_not_mem_of_read hlen hr hn

/-- Where entries were written, as many are read only if all of their nodes are proper. -/
theorem valid_of_readAll (hlen : ∀ e ∈ es, e.node.levels.length < UInt32.size)
    (hr : i.rest = es.flatMap encode ++ rest) (h : readAll i = .ok es' i')
    (hcount : es.length ≤ es'.length) : ∀ e ∈ es, e.node.Valid := by
  -- Induction on the entries that were written.
  induction es generalizing i es' with
  | nil => exact fun _ he => absurd he List.not_mem_nil
  | cons e es ih =>
    obtain ⟨hlenHere, hlen⟩ := List.forall_mem_cons.mp hlen
    rw [List.flatMap_cons, List.append_assoc] at hr
    rcases readAll_eq_ok_iff.mp h with ⟨_, rfl⟩ | ⟨e', i₁, es'', hx, hmore, rfl⟩
    -- Reading ended before all of them.
    · rw [List.length_cons, List.length_nil] at hcount
      omega
    · have hvalid := valid_of_read? hlenHere hr hx
      obtain ⟨i₂, hy, _, hr₂⟩ := takes_read? (e := e) ⟨hvalid, hlenHere⟩ i _ hr
      obtain ⟨_, rfl⟩ := EStateM.Result.ok.inj (hx.symm.trans hy)
      rw [List.length_cons, List.length_cons] at hcount
      exact List.forall_mem_cons.mpr ⟨hvalid, ih hlen hr₂ hmore (by omega)⟩

/-! ## Lengths -/

/-- An entry in a body has fewer levels than the body has bytes. -/
theorem length_levels_le {e : Entry} (he : e ∈ es) :
    e.node.levels.length ≤ (encodeBody es).length := by
  obtain ⟨front, back, rfl⟩ := List.append_of_mem he
  have hlevels := NodeId.length_le_length_flatMap_encode e.node.levels
  simp only [encodeBody, List.flatMap_append, List.flatMap_cons, List.length_append, encode,
    NodeId.encode]
  omega

/-- No entry is written as nothing. -/
theorem length_encode_pos (e : Entry) : 0 < e.encode.length := by
  have hcount := Varint.length_encode_pos (UInt32.ofNat e.node.levels.length)
  simp only [encode, NodeId.encode, List.length_append]
  omega

/-- There are no more entries than bytes. -/
theorem length_le_length_encodeBody (es : List Entry) : es.length ≤ (encodeBody es).length := by
  have hentries := length_le_length_flatMap length_encode_pos es
  rw [encodeBody, List.length_append]
  omega

/-- Proper nodes in a body of that length fit into a block. -/
theorem fitBlock_of_valid (hlength : (encodeBody es).length < UInt32.size)
    (hvalid : ∀ e ∈ es, e.node.Valid) : FitBlock es :=
  ⟨fun e he => ⟨hvalid e he, Nat.lt_of_le_of_lt (length_levels_le he) hlength⟩, hlength⟩

end Entry

namespace Block

variable {es : List Entry}

/-- A written block decodes exactly if all of its nodes are proper. -/
theorem entries_ofEntries_ok_iff (doc : DocId) (order : BlockOrder)
    (hlength : (Entry.encodeBody es).length < UInt32.size) :
    (∃ es', (ofEntries doc order es).entries = .ok es') ↔ ∀ e ∈ es, e.node.Valid := by
  constructor
  -- The block declares how many entries there are, and as many were read.
  · rintro ⟨es', hentries⟩
    obtain ⟨htakes, hcount⟩ := entries_eq_ok_iff.mp hentries
    have hlt := Nat.lt_of_le_of_lt (Entry.length_le_length_encodeBody es) hlength
    rw [ofEntries, UInt32.toNat_ofNat', Nat.mod_eq_of_lt hlt] at hcount
    obtain ⟨i, hread, _, _⟩ := htakes (.ofBytes (Entry.encodeBody es)) [] (List.append_nil _).symm
    exact Entry.valid_of_readAll
      (fun e he => Nat.lt_of_le_of_lt (Entry.length_levels_le he) hlength) rfl hread
      (Nat.le_of_eq hcount.symm)
  · exact fun hvalid => ⟨es, entries_ofEntries doc order (Entry.fitBlock_of_valid hlength hvalid)⟩

end Block

/-! ## Stored values -/

namespace Store

variable {s s' : Store}

/-- A value that is made of blocks is still, with one more. -/
theorem Framed.appended {b : Block} (hs : s.Framed) (hb : b.WellFramed) (key key' : Bytes) :
    Block.scan (((s.appended key b.raw).value? key').getD []) =
      ⟨Index.blocksOf (s.value? key') ++ (if key = key' then [b] else []), none⟩ := by
  rw [value?_appended]
  -- Only the value that is appended to has another block.
  by_cases hkey : key' = key
  · subst hkey
    obtain ⟨hvalue, hframed⟩ := Block.scan_eq_iff.mp (hs key')
    rw [if_pos rfl, if_pos rfl, Option.getD_some]
    refine Block.scan_eq_iff.mpr ⟨?_, List.forall_mem_append.mpr
      ⟨hframed, List.forall_mem_singleton.mpr hb⟩⟩
    rw [Block.valueOf_append, ← hvalue]
    simp
  · rw [if_neg hkey, if_neg (Ne.symm hkey), List.append_nil]
    exact hs key'

end Store

/-! ## What a flush has written -/

namespace Batch

variable {b : Batch} {names : List QName} {t t' : SymbolTable} {s s' : Store}

/-- The entries that nodes of a batch are written as. -/
def entriesOf (nodes : List NodeRef) : List Entry := (NodeRef.sort nodes).map NodeRef.toEntry

/-- The block that nodes of the batch are written as. -/
def written (b : Batch) (nodes : List NodeRef) : Block :=
  Block.ofEntries b.document.id b.order (entriesOf nodes)

/-- The length fields can hold the lengths of the blocks. -/
def FitsLengths (b : Batch) : Prop :=
  ∀ q nodes, b.nodes? q = some nodes → (Entry.encodeBody (entriesOf nodes)).length < UInt32.size

/-- The blocks of those of these names that have the key, in the order of the names. -/
def writtenUnder (b : Batch) (t : SymbolTable) (names : List QName) (key : Bytes) : List Block :=
  names.flatMap fun q =>
    match Key.lookup? t q.kind b.document.collection q, b.nodes? q with
    | some k, some nodes => if k.toBytes = key then [b.written nodes] else []
    | _, _ => []

/-- Commits only add codes. -/
theorem Commits.extends (h : b.Commits names t s t' s') : t'.Extends t := by
  induction h with
  | nil => exact .refl _
  | cons known formed accepted rest ih => exact ih.trans (Key.ofName_eq_ok formed).2

/-- After a commit every value has its old blocks, and behind them those of the names. -/
theorem Commits.scan_value? (h : b.Commits names t s t' s') (hfits : b.FitsLengths)
    (hs : s.Framed) (key : Bytes) :
    Block.scan ((s'.value? key).getD []) =
      ⟨Index.blocksOf (s.value? key) ++ b.writtenUnder t' names key, none⟩ := by
  -- Induction on the commits; the codes of a name stay with it to the end.
  induction h with
  | nil =>
    rw [writtenUnder, List.flatMap_nil, List.append_nil]
    exact hs key
  | @cons q names nodes k t t₁ t' s s' known formed accepted rest ih =>
    have hb : (b.written nodes).WellFramed := Block.wellFramed_of_length _ _ (hfits q nodes known)
    have happended : ∀ key, Block.scan
        (((s.appended k.toBytes (b.blockOf nodes)).value? key).getD []) = _ :=
      hs.appended hb k.toBytes
    have hk := Key.lookup?_of_extends rest.extends (Key.ofName_eq_ok formed).1
    have hblocks := fun key => Index.blocksOf_of_scan_eq (happended key)
    rw [ih fun key => by rw [happended, hblocks], hblocks]
    simp only [writtenUnder, List.flatMap_cons, hk, known, List.append_assoc]

/-- What is committed has its key afterwards. -/
theorem Commits.exists_lookup? (h : b.Commits names t s t' s') :
    ∀ q ∈ names, ∃ k, Key.lookup? t' q.kind b.document.collection q = some k := by
  induction h with
  | nil => exact fun _ hq => absurd hq List.not_mem_nil
  | cons known formed accepted rest ih =>
    exact List.forall_mem_cons.mpr
      ⟨⟨_, Key.lookup?_of_extends rest.extends (Key.ofName_eq_ok formed).1⟩, ih⟩

/-- The block of a name is among those under its key. -/
theorem mem_writtenUnder {q : QName} {nodes : List NodeRef} {k : Key} (hq : q ∈ names)
    (hnodes : b.nodes? q = some nodes)
    (hk : Key.lookup? t q.kind b.document.collection q = some k) :
    b.written nodes ∈ b.writtenUnder t names k.toBytes := by
  refine List.mem_flatMap.mpr ⟨q, hq, ?_⟩
  simp only [hk, hnodes, if_true, List.mem_singleton]

/-- Every block written is that of a name of the batch. -/
theorem exists_of_mem_writtenUnder {blk : Block} {key : Bytes}
    (h : blk ∈ b.writtenUnder t names key) :
    ∃ q nodes, b.nodes? q = some nodes ∧ blk = b.written nodes := by
  obtain ⟨q, _, hblk⟩ := List.mem_flatMap.mp h
  split at hblk
  · next k nodes _ hnodes =>
    split at hblk
    · exact ⟨q, nodes, hnodes, List.mem_singleton.mp hblk⟩
    · cases hblk
  · cases hblk

/-- All nodes of the batch are nodes. -/
def Proper (b : Batch) : Prop := ∀ q nodes, b.nodes? q = some nodes → ∀ r ∈ nodes, r.node.Valid

/-- The nodes that are written are those of the batch. -/
theorem forall_mem_entriesOf {p : NodeId → Prop} {nodes : List NodeRef} :
    (∀ e ∈ entriesOf nodes, p e.node) ↔ ∀ r ∈ nodes, p r.node := by
  simp only [entriesOf, List.forall_mem_map, (NodeRef.perm_sort nodes).mem_iff, NodeRef.toEntry]

/-- What is written for the nodes of a name decodes to them if they are nodes, and not at all
otherwise. -/
theorem entries_written_iff {q : QName} {nodes : List NodeRef} (hfits : b.FitsLengths)
    (hnodes : b.nodes? q = some nodes) :
    (∃ es, (b.written nodes).entries = .ok es) ↔ ∀ r ∈ nodes, r.node.Valid :=
  (Block.entries_ofEntries_ok_iff _ _ (hfits q nodes hnodes)).trans forall_mem_entriesOf

/-- A written block of proper nodes decodes to them. -/
theorem entries_written {q : QName} {nodes : List NodeRef} (hfits : b.FitsLengths)
    (hnodes : b.nodes? q = some nodes) (hvalid : ∀ r ∈ nodes, r.node.Valid) :
    (b.written nodes).entries = .ok (entriesOf nodes) :=
  Block.entries_ofEntries _ _ (Entry.fitBlock_of_valid (hfits q nodes hnodes)
    (forall_mem_entriesOf.mpr hvalid))

end Batch

/-! ## Asking for a name -/

namespace Index

variable {i i' : Index} {kind : NameKind} {name : QName} {select? : Option Selector}
  {result : NodeSet}

/-- A look-up looks into every block of a document that is asked for. -/
theorem addBlock_eq_ok_iff {docs : DocumentSet} {f : Findings} {b : Block} :
    (∃ f', f.addBlock kind select? docs b = .ok f') ↔
      ((docs.get? b.doc).isSome → ∃ es, b.entries = .ok es) := by
  rw [Findings.addBlock]
  cases docs.get? b.doc with
  | none => simp
  | some d => cases b.entries <;> simp [bind, Except.bind]

/-- A look-up succeeds where all values can be decoded. -/
theorem exists_lookup_of_decodable (hs : i.store.Decodable) (hfree : i.store.isFree .read)
    (hget : i.store.planned .get = 0) (hkeys : ∀ c, (i.key? kind c name).isSome)
    (docs : DocumentSet) (select? : Option Selector) :
    ∃ result i', lookup kind docs name select? i = .ok result i' := by
  -- No value and no block that the walk comes to stands in its way.
  obtain ⟨f, i', hvisits⟩ := exists_visitValues (Findings.addBlock kind select? docs)
    hfree hget (fun c (_ : c ∈ docs.collections) => hkeys c)
    (fun c _ value hv => by
      obtain ⟨k, hk⟩ := exists_value?_of_storedValue? hv
      have hscan := hs.framed k.toBytes
      rw [hk] at hscan
      exact congrArg Framing.fault? hscan)
    (fun c _ b hb g => addBlock_eq_ok_iff.mpr fun _ => by
      obtain ⟨value, hv, hb⟩ := mem_storedBlocks.mp hb
      obtain ⟨k, hk⟩ := exists_value?_of_storedValue? hv
      exact ⟨b.content, hs.decodes k.toBytes b (hk ▸ hb)⟩) {}
  exact ⟨_, i', Action.bind_eq_ok_iff.mpr ⟨f, i', hvisits, rfl⟩⟩

/-- A look-up that succeeds for a document has decoded all of its blocks. -/
theorem entries_of_lookup {d : Document} {k : Key}
    (hk : Key.lookup? i.symbols kind d.collection name = some k)
    (h : lookup kind (.ofList [d]) name select? i = .ok result i') :
    ∀ b ∈ blocksOf (i.store.value? k.toBytes), b.doc = d.id → ∃ es, b.entries = .ok es := by
  obtain ⟨f, i₁, hvisits, _⟩ := Action.bind_eq_ok_iff.mp h
  intro b hb hdoc
  have hstored : b ∈ i.storedBlocks kind d.collection name := by
    rw [storedBlocks, storedValue?, key?, Key.ofName_of_lookup? hk]
    exact hb
  -- The walk has come to the block, and has added it to something.
  obtain ⟨g, g', hvisit⟩ := exists_visit_of_visitValues hvisits d.collection
    (List.mem_singleton.mpr rfl) b hstored
  refine addBlock_eq_ok_iff.mp ⟨g', hvisit⟩ ?_
  have hget := SortedMap.get?_insert_eq (.empty : SortedMap DocId Document) d.id b.doc d
  rw [if_pos hdoc] at hget
  exact Option.isSome_iff_exists.mpr ⟨d, hget⟩

/-! ## What a flush leaves behind -/

section Flushes

variable {b : Batch} {summary : FlushSummary} {f : Flushing}

/-- A flush that writes a name has found the lock free. -/
theorem isFree_of_flush (hnames : b.names ≠ []) (h : flush (flushing i b) = .ok summary f) :
    i.store.isFree .write := by
  have hempty : b.isEmpty = false := Bool.eq_false_iff.mpr (mt Batch.isEmpty_iff.mp hnames)
  obtain ⟨name, names, hlist⟩ := List.exists_cons_of_ne_nil hnames
  obtain ⟨nodes, hnodes⟩ := Option.isSome_iff_exists.mp
    (Batch.mem_names_iff.mp (hlist ▸ List.mem_cons_self : name ∈ b.names))
  rw [flush_of_names hempty] at h
  -- The first name was committed under the lock.
  split at h
  · next f₁ hrun =>
    rw [hlist] at hrun
    obtain ⟨_, f₂, hname, _⟩ := Action.bind_eq_ok_iff.mp hrun
    obtain ⟨_, _, hfree, _⟩ := flushName_eq_ok (f := begun (flushing i b)) hnodes hname
    exact hfree
  · cases h

/-- A flush that succeeds leaves every value framed: its blocks as before, and those of the batch
behind them.  But what it wrote decodes to the nodes of the batch, and the names it wrote can be
asked for, exactly if these nodes are proper: nobody looks at them before they are written, and one
that is not makes the whole key unreadable. -/
theorem flush_readable_iff (hfits : b.FitsLengths) (hs : i.store.Decodable)
    (hcalm : i.store.Calm) (h : flush (flushing i b) = .ok summary f) :
    (∀ key, Block.scan ((f.index.store.value? key).getD []) =
      ⟨blocksOf (i.store.value? key) ++ b.writtenUnder f.index.symbols b.names key, none⟩) ∧
    ((∀ q nodes, b.nodes? q = some nodes →
      (b.written nodes).entries = .ok (Batch.entriesOf nodes)) ↔ b.Proper) ∧
    ((∀ q ∈ b.names, ∀ docs select?, ∃ result i',
      lookup q.kind docs q select? f.index = .ok result i') ↔ b.Proper) := by
  have haccess : f.index.store.SameAccess i.store := by
    have hkeeps := keepsAccess_flush (flushing i b)
    rwa [h] at hkeeps
  have hflush := h
  rw [← flushAmid_none] at hflush
  obtain ⟨s, hcommits, hsame, _⟩ := flushAmid_eq_ok hflush
  change b.Commits b.names i.symbols i.store f.index.symbols s at hcommits
  -- Behind the blocks that were there stand those of the batch.
  have hscan : ∀ key, Block.scan ((f.index.store.value? key).getD []) =
      ⟨blocksOf (i.store.value? key) ++ b.writtenUnder f.index.symbols b.names key, none⟩ :=
    fun key => by rw [hsame.value?, hcommits.scan_value? hfits hs.framed]
  have hblocks := fun key => blocksOf_of_scan_eq (hscan key)
  refine ⟨hscan, ⟨fun hentries q nodes hnodes => ?_, fun hproper q nodes hnodes => ?_⟩,
    ⟨fun hlookups q nodes hnodes => ?_, fun hproper q hq docs select? => ?_⟩⟩
  -- What decodes to the nodes of the batch decodes.
  · exact (Batch.entries_written_iff hfits hnodes).mp ⟨_, hentries q nodes hnodes⟩
  · exact Batch.entries_written hfits hnodes (hproper q nodes hnodes)
  · -- The look-up for the document alone has come to the block.
    have hq : q ∈ b.names := Batch.mem_names_iff.mpr (by rw [hnodes]; rfl)
    obtain ⟨k, hk⟩ := hcommits.exists_lookup? q hq
    obtain ⟨result, i', hlookup⟩ := hlookups q hq (.ofList [b.document]) none
    refine (Batch.entries_written_iff hfits hnodes).mp (entries_of_lookup hk hlookup _ ?_ rfl)
    rw [hblocks]
    exact List.mem_append_right _ (Batch.mem_writtenUnder hq hnodes hk)
  · obtain ⟨k, hk⟩ := hcommits.exists_lookup? q hq
    have hfree := isFree_of_flush (List.ne_nil_of_mem hq) h
    refine exists_lookup_of_decodable ⟨fun key => ?_, fun key blk hblk => ?_⟩ ?_ ?_ (fun c => ?_)
      docs select?
    · rw [hscan, hblocks]
    · rw [hblocks] at hblk
      -- A block that was there before decodes as before; the others are those of the batch.
      rcases List.mem_append.mp hblk with hblk | hblk
      · exact hs.decodes key blk hblk
      · obtain ⟨q', nodes, hnodes, rfl⟩ := Batch.exists_of_mem_writtenUnder hblk
        have hentries := Batch.entries_written hfits hnodes (hproper q' nodes hnodes)
        rw [Block.content_of_entries hentries, hentries]
    · rw [haccess.isFree]
      exact Store.isFree_read_of_write hfree
    · exact haccess.calm hcalm .get
    · rw [key?, Key.ofName_of_lookup? (Key.lookup?_of_collection hk c)]
      rfl

end Flushes

/-- An index with one value, an empty block of document 2. -/
def besideAnother : Index where
  store := ({ name := "nodes", timeout := ⟨100⟩ } : Store).place (Key.verbatim 7 "id").toBytes
    [2, 1, 0, 1, 0, 0, 0, 0]
  symbols := .empty
  progressStep := 10

/-- The one block there has no entries and can be read. -/
theorem decodable_besideAnother : besideAnother.store.Decodable := by
  have hvalue := Store.value?_place { name := "nodes", timeout := ⟨100⟩ }
    (Key.verbatim 7 "id").toBytes [2, 1, 0, 1, 0, 0, 0, 0]
  refine ⟨fun key => ?_, fun key b hb => ?_⟩
  · rw [besideAnother, hvalue]
    split
    · cbv
    · exact Block.scanFrom_of_left_eq_zero rfl
  · rw [besideAnother, hvalue] at hb
    split at hb
    -- The block is one of another document and without entries.
    · have hblocks : blocksOf (some [2, 1, 0, 1, 0, 0, 0, 0]) =
          [⟨2, .unordered, 0, 1, [2, 1, 0, 1, 0, 0, 0, 0], [0]⟩] := by cbv
      rw [hblocks] at hb
      rw [List.mem_singleton.mp hb]
      cbv
    · cases hb

/-- Each of the two names has one node of document 1. -/
theorem nodes?_twoNames {q : QName} {nodes : List NodeRef}
    (h : twoNames.nodes? q = some nodes) :
    nodes = [{ doc := 1, node := ⟨[1]⟩ }] ∨ nodes = [{ doc := 1, node := ⟨[2]⟩ }] := by
  rw [twoNames, Batch.nodes?_restore] at h
  split at h
  · exact .inr (Option.some.inj h).symm
  · rw [oneNode, Batch.nodes?_restore] at h
    split at h
    · exact .inl (Option.some.inj h).symm
    · cases h

/-- Two names are written, one of them behind the block that is there, and both can be asked for
then. -/
theorem flush_twoNames_readable : ∃ f, besideAnother.store.Decodable ∧
    flush (flushing besideAnother twoNames) = .ok ⟨2, 2⟩ f ∧
    (∀ q nodes, twoNames.nodes? q = some nodes →
      (twoNames.written nodes).entries = .ok (Batch.entriesOf nodes)) ∧
    ∀ q ∈ twoNames.names, ∀ docs select?, ∃ result i',
      lookup q.kind docs q select? f.index = .ok result i' := by
  have hfits : twoNames.FitsLengths := fun q nodes hnodes => by
    rcases nodes?_twoNames hnodes with rfl | rfl <;> cbv
  have hproper : twoNames.Proper := fun q nodes hnodes => by
    rcases nodes?_twoNames hnodes with rfl | rfl <;> decide
  have h := Action.eq_ok_of_outcomeOf (a := (⟨2, 2⟩ : FlushSummary))
    (r := flush (flushing besideAnother twoNames)) (by cbv)
  obtain ⟨_, hentries, hlookups⟩ :=
    flush_readable_iff hfits decodable_besideAnother (fun _ => rfl) h
  exact ⟨_, decodable_besideAnother, h, hentries.mpr hproper, hlookups.mpr hproper⟩

/-- The first load of document 1 with one node, under the name of that value. -/
def oneNodeBatch (n : NodeId) : Batch where
  document := ⟨1, 7, "/db/a.xml"⟩
  order := .ordered
  pending := SortedMap.empty.insert { kind := .attrId, localName := "id" } [{ doc := 1, node := n }]

/-- A batch takes any node id. -/
theorem register_oneNodeBatch (n : NodeId) :
    (Batch.firstLoad ⟨1, 7, "/db/a.xml"⟩).register { kind := .attrId, localName := "id" }
      { doc := 1, node := n } = .ok (oneNodeBatch n) := rfl

/-- The batch has nothing but the one node. -/
theorem nodes?_oneNodeBatch {n : NodeId} {q : QName} {nodes : List NodeRef}
    (h : (oneNodeBatch n).nodes? q = some nodes) : nodes = [{ doc := 1, node := n }] := by
  rw [Batch.nodes?, oneNodeBatch, SortedMap.get?_insert_eq] at h
  split at h
  · exact (Option.some.inj h).symm
  · cases h

/-- The closing mark is taken as a node and written as one.  The flush succeeds, and afterwards the
document cannot be asked for under the name, nor can the block be decoded. -/
theorem flush_closingMark_unreadable :
    (Batch.firstLoad ⟨1, 7, "/db/a.xml"⟩).register { kind := .attrId, localName := "id" }
        { doc := 1, node := .endOfDocument } = .ok (oneNodeBatch .endOfDocument) ∧
    besideAnother.store.Decodable ∧ besideAnother.store.Open ∧
    (oneNodeBatch .endOfDocument).FitsLengths ∧
    ∃ f, flush (flushing besideAnother (oneNodeBatch .endOfDocument)) = .ok ⟨1, 1⟩ f ∧
      (∃ b ∈ blocksOf (f.index.store.value? (Key.verbatim 7 "id").toBytes),
        b.entries = .error (.blockMiscounted 1 1 0)) ∧
      ∃ i', lookup .attrId (.ofList [⟨1, 7, "/db/a.xml"⟩])
        { kind := .attrId, localName := "id" } none f.index =
          .error (.blockMiscounted 1 1 0) i' := by
  have hfits : (oneNodeBatch .endOfDocument).FitsLengths := fun q nodes hnodes => by
    rw [nodes?_oneNodeBatch hnodes]
    cbv
  have h := Action.eq_ok_of_outcomeOf (a := (⟨1, 1⟩ : FlushSummary))
    (r := flush (flushing besideAnother (oneNodeBatch .endOfDocument))) (by cbv)
  -- Both blocks are looked at: the one that was there can be decoded, the new one cannot.
  have hentries : (blocksOf ((Action.stateOf (flush (flushing besideAnother
      (oneNodeBatch .endOfDocument)))).index.store.value? (Key.verbatim 7 "id").toBytes)).map
        (·.entries) = [.ok [], .error (.blockMiscounted 1 1 0)] := by cbv
  refine ⟨register_oneNodeBatch _, decodable_besideAnother, ⟨rfl, rfl, fun _ => rfl⟩, hfits, _, h,
    List.mem_map.mp ?_, _, Action.eq_error_of_outcomeOf (by cbv)⟩
  rw [hentries]
  exact List.mem_cons_of_mem _ List.mem_cons_self

end Index

end XmlIndex
