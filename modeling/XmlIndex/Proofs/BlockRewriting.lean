import XmlIndex.Index.Drop
import XmlIndex.Index.Update
import XmlIndex.Proofs.EntryArranging
import XmlIndex.Proofs.QueryVisits

/-! # Lists of blocks and how they are rewritten

`Block.Intact` says what the blocks under one key are like: they are well framed, sound and
not empty, and at most one ordered block is of the same document.  Their value is scanned back
into them (`Block.Intact.scan_eq`), so all that the writers do to values can be told in terms
of the blocks:

* a flush puts a block behind them (`Block.Intact.append`),
* a removal keeps the blocks of other documents and merges what is left of the document into
  one block behind them (`Index.withoutNodes_eq`, `Block.Intact.rewritten`),
* dropping a document keeps the blocks of the others (`Framing.without_eq`).

Read as a map, the blocks have for every document and node the address in the first entry
(`Block.addressIn`); what the rewriting does to this map is said in the last section. -/

namespace XmlIndex

namespace Block

/-- The blocks under one key as the index keeps them. -/
structure Intact (bs : List Block) : Prop where
  framed : ∀ b ∈ bs, b.WellFramed
  sound : ∀ b ∈ bs, b.Sound
  nonempty : ∀ b ∈ bs, b.content ≠ []
  oneOrdered : bs.Pairwise fun a b => a.order = .ordered → b.order = .ordered → a.doc ≠ b.doc

/-- The blocks of the other documents. -/
def others (doc : DocId) (bs : List Block) : List Block := bs.filter (·.doc != doc)

/-- The entries of a document, block by block. -/
def entriesIn (doc : DocId) (bs : List Block) : List Entry :=
  (bs.filter (·.doc == doc)).flatMap (·.content)

/-- The entries of a document whose nodes are not to be removed. -/
def survivors (doc : DocId) (removed : List NodeId) (bs : List Block) : List Entry :=
  (entriesIn doc bs).filter fun e => !removed.contains e.node

/-- The one block these entries are merged into, or none if there is no entry. -/
def merged (doc : DocId) (es : List Entry) : List Block :=
  if es.isEmpty then [] else [ofEntries doc .ordered (Entry.arrange es)]

/-- The blocks after the removal of nodes of a document. -/
def rewritten (doc : DocId) (removed : List NodeId) (bs : List Block) : List Block :=
  others doc bs ++ merged doc (survivors doc removed bs)

/-- The blocks of a document can be decoded; the bodies of the others may be anything. -/
def Decodes (doc : DocId) (bs : List Block) : Prop :=
  ∀ b ∈ bs, b.doc = doc → b.entries = .ok b.content

/-! ## Intact blocks -/

section Lists

variable {bs cs : List Block} {doc : DocId} {es : List Entry}

/-- No blocks at all are as they should be. -/
theorem intact_nil : Intact [] :=
  ⟨fun _ h => absurd h List.not_mem_nil, fun _ h => absurd h List.not_mem_nil,
    fun _ h => absurd h List.not_mem_nil, .nil⟩

/-- The value of intact blocks is scanned back into them. -/
theorem Intact.scan_eq (h : Intact bs) : scan (valueOf bs) = ⟨bs, none⟩ :=
  scan_eq_iff.mpr ⟨rfl, h.framed⟩

/-- Some of the blocks are as they should be if all are. -/
theorem Intact.sublist (h : Intact bs) (hs : cs.Sublist bs) : Intact cs :=
  ⟨fun b hb => h.framed b (hs.subset hb), fun b hb => h.sound b (hs.subset hb),
    fun b hb => h.nonempty b (hs.subset hb), h.oneOrdered.sublist hs⟩

/-- Leaving out the blocks of a document keeps the others as they should be. -/
theorem Intact.others (h : Intact bs) (doc : DocId) : Intact (others doc bs) :=
  h.sublist List.filter_sublist

/-- A block is put behind the others; an ordered one only if its document has none yet. -/
theorem Intact.append {order : BlockOrder} (h : Intact bs) (hfit : Entry.FitBlock es)
    (hne : es ≠ []) (hsorted : order = .ordered → es.Pairwise fun a b => a.node ≤ b.node)
    (hnew : order = .ordered → ∀ b ∈ bs, b.doc ≠ doc) :
    Intact (bs ++ [ofEntries doc order es]) where
  framed := List.forall_mem_append.mpr
    ⟨h.framed, List.forall_mem_singleton.mpr (wellFramed_ofEntries doc order hfit)⟩
  sound := List.forall_mem_append.mpr
    ⟨h.sound, List.forall_mem_singleton.mpr (sound_ofEntries doc hfit hsorted)⟩
  nonempty := by
    refine List.forall_mem_append.mpr ⟨h.nonempty, List.forall_mem_singleton.mpr ?_⟩
    rwa [content_ofEntries doc order hfit]
  -- The other ordered blocks are of other documents, by what was supposed.
  oneOrdered := by
    refine List.pairwise_append.mpr ⟨h.oneOrdered, List.pairwise_singleton _ _, ?_⟩
    intro b hb b' hb' _ hord
    rw [List.mem_singleton.mp hb'] at hord ⊢
    exact hnew hord b hb

/-- The entries of a document are those in its blocks. -/
theorem mem_entriesIn {e : Entry} :
    e ∈ entriesIn doc bs ↔ ∃ b ∈ bs, b.doc = doc ∧ e ∈ b.content := by
  simp only [entriesIn, List.mem_flatMap, List.mem_filter, beq_iff_eq, and_assoc]

/-- Intact blocks can be decoded. -/
theorem Intact.decodes (h : Intact bs) (doc : DocId) : Decodes doc bs :=
  fun b hb _ => (h.sound b hb).entries_eq

/-- What survives of a document fits into one block if its length allows that. -/
theorem Decodes.fitBlock_survivors {removed : List NodeId} (h : Decodes doc bs)
    (hlength : (Entry.encodeBody (Entry.arrange (survivors doc removed bs))).length < UInt32.size) :
    Entry.FitBlock (Entry.arrange (survivors doc removed bs)) := by
  refine ⟨fun e he => ?_, hlength⟩
  have hmem := (List.mem_filter.mp (Entry.mem_of_mem_arrange he)).1
  obtain ⟨b, hb, hdoc, hcontent⟩ := mem_entriesIn.mp hmem
  exact storable_of_entries (h b hb hdoc) e hcontent

/-- Blocks that are rewritten are as they should be, if the merged block can be written. -/
theorem Intact.rewritten {removed : List NodeId} (h : Intact bs)
    (hlength : (Entry.encodeBody (Entry.arrange (survivors doc removed bs))).length < UInt32.size) :
    Intact (rewritten doc removed bs) := by
  rw [Block.rewritten, merged]
  -- If nothing survives, no block is written for the document.
  cases hs : survivors doc removed bs with
  | nil =>
    rw [List.isEmpty_nil, if_pos rfl, List.append_nil]
    exact h.others doc
  | cons e es =>
    rw [← hs, if_neg (by rw [hs]; exact Bool.false_ne_true)]
    refine (h.others doc).append ((h.decodes doc).fitBlock_survivors hlength) ?_ (fun _ => ?_)
      fun _ b hb => ?_
    · exact Entry.arrange_ne_nil (by rw [hs]; exact List.cons_ne_nil e es)
    · exact (Entry.ascending_arrange _).imp fun hlt => Std.le_of_lt hlt
    · simpa using (List.mem_filter.mp hb).2

/-- After a removal the document has at most the one block that was written, whose node ids
ascend strictly. -/
theorem ascending_of_mem_rewritten {removed : List NodeId} {b : Block} (h : Intact bs)
    (hlength : (Entry.encodeBody (Entry.arrange (survivors doc removed bs))).length < UInt32.size)
    (hb : b ∈ Block.rewritten doc removed bs) :
    (b ∈ bs ∧ b.doc ≠ doc) ∨
      (b.doc = doc ∧ b.order = .ordered ∧ b.content.Pairwise fun a b => a.node < b.node) := by
  -- A block is one of another document, or the one that was written.
  rcases List.mem_append.mp hb with hb | hb
  · obtain ⟨hmem, hdoc⟩ := List.mem_filter.mp hb
    exact .inl ⟨hmem, by simpa using hdoc⟩
  · rw [merged] at hb
    split at hb
    · cases hb
    · have hfit := (h.decodes doc).fitBlock_survivors hlength
      rw [List.mem_singleton.mp hb, content_ofEntries doc .ordered hfit]
      exact .inr ⟨rfl, rfl, Entry.ascending_arrange _⟩

/-- The value is made of intact blocks. -/
def IntactValue (value : Bytes) : Prop := ∃ bs, Intact bs ∧ value = valueOf bs

/-- The value without the blocks of a document. -/
def cut (doc : DocId) (value : Bytes) : Bytes := valueOf (Block.others doc (scan value).blocks)

/-- What is cut out of a value are blocks. -/
theorem cut_valueOf (h : Intact bs) : cut doc (valueOf bs) = valueOf (Block.others doc bs) := by
  rw [cut, h.scan_eq]

/-- A value of intact blocks stays one when a document is cut out. -/
theorem IntactValue.cut {value : Bytes} (h : IntactValue value) (doc : DocId) :
    IntactValue (cut doc value) := by
  obtain ⟨bs, hbs, rfl⟩ := h
  exact ⟨_, hbs.others doc, cut_valueOf hbs⟩

/-- Cutting a value is leaving out the blocks that a scan finds of the document. -/
theorem cut_of_scan_eq {value : Bytes} (h : scan value = ⟨bs, none⟩) :
    cut doc value = valueOf (Block.others doc bs) := by
  rw [cut, h]

/-- What is cut out of a value leaves the other blocks as they are. -/
theorem scan_cut {value : Bytes} (h : scan value = ⟨bs, none⟩) :
    scan (cut doc value) = ⟨Block.others doc bs, none⟩ := by
  obtain ⟨_, hframed⟩ := scan_eq_iff.mp h
  exact scan_eq_iff.mpr ⟨cut_of_scan_eq h, fun b hb => hframed b (List.mem_filter.mp hb).1⟩

/-- Cutting twice is cutting once. -/
theorem cut_cut (doc : DocId) {value : Bytes} (h : (scan value).fault? = none) :
    Block.cut doc (Block.cut doc value) = Block.cut doc value := by
  have hscan : scan value = ⟨(scan value).blocks, none⟩ := by rw [← h]
  rw [cut_of_scan_eq (scan_cut hscan), cut_of_scan_eq hscan, Block.others, Block.others,
    List.filter_filter]
  simp only [Bool.and_self]

/-- From a value without a block of the document nothing is cut. -/
theorem cut_eq_self {value : Bytes} (h : (scan value).fault? = none)
    (hdoc : (scan value).blocks.any (·.doc == doc) = false) : cut doc value = value := by
  have hscan : scan value = ⟨(scan value).blocks, none⟩ := by rw [← h]
  -- All blocks are those of other documents.
  have hothers : Block.others doc (scan value).blocks = (scan value).blocks := by
    refine List.filter_eq_self.mpr fun b hb => ?_
    have hne := List.any_eq_false.mp hdoc b hb
    simpa using hne
  rw [cut, hothers]
  exact (scan_eq_iff.mp hscan).1.symm

end Lists

end Block

/-! ## What the writers do -/

namespace Framing

open Block

variable {bs : List Block} {doc : DocId}

/-- The document is found to have no block if that is so. -/
theorem requireNoBlockOf_eq_ok_iff {key : Key} :
    (⟨bs, none⟩ : Framing).requireNoBlockOf doc key = .ok () ↔ ∀ b ∈ bs, b.doc ≠ doc := by
  rw [requireNoBlockOf, fold_of_no_fault rfl]
  show bs.foldlM _ () = _ ↔ _
  -- Induction on the blocks: the walk stops at the first of the document.
  induction bs with
  | nil => simp [pure, Except.pure]
  | cons b bs ih =>
    rw [List.foldlM_cons, List.forall_mem_cons]
    by_cases hb : b.doc = doc
    · rw [if_pos hb]
      refine ⟨fun h => ?_, fun h => absurd hb h.1⟩
      cases h
    · rw [if_neg hb]
      exact ih.trans ⟨fun h => ⟨hb, h⟩, fun h => h.2⟩

/-- The loop of `without`, from any bytes collected and any answer so far. -/
theorem foldlM_without (bs : List Block) (bytes : Bytes) (found : Bool) : bs.foldlM
    (fun (x : Bytes × Bool) (b : Block) =>
      if b.doc = doc then .ok (x.1, true) else .ok (x.1 ++ b.raw, x.2)) (bytes, found) =
      (.ok (bytes ++ valueOf (others doc bs), found || bs.any (·.doc == doc)) :
        Except Error (Bytes × Bool)) := by
  -- Induction on the blocks that are still to be looked at.
  induction bs generalizing bytes found with
  | nil => simp [others, pure, Except.pure]
  | cons b bs ih =>
    rw [List.foldlM_cons]
    by_cases hb : b.doc = doc
    -- A block of the document is left out and found.
    · have hrest := ih bytes true
      simpa [others, hb, bind, Except.bind] using hrest
    -- Any other one is copied.
    · have hrest := ih (bytes ++ b.raw) found
      have hbeq : (b.doc == doc) = false := by simpa using hb
      simpa [others, hb, hbeq, bind, Except.bind] using hrest

/-- The blocks of the other documents, and whether the document had one. -/
theorem without_eq :
    (⟨bs, none⟩ : Framing).without doc =
      .ok (valueOf (others doc bs), bs.any (·.doc == doc)) := by
  rw [without, fold_of_no_fault rfl]
  exact foldlM_without bs [] false

/-- It fails with the fault of the value and for no other reason. -/
theorem fault?_of_without_eq_error {f : Framing} {e : Error} (h : f.without doc = .error e) :
    f.fault? = some e := by
  rw [without, fold, foldlM_without] at h
  -- Going through the blocks cannot fail here.
  cases hfault : f.fault? with
  | none =>
    rw [hfault] at h
    cases h
  | some e' =>
    rw [hfault] at h
    rw [Except.error.inj h]

/-- The blocks of the other documents, and what survives of the document; its own blocks are
all that has to be decoded. -/
theorem split_eq_ok_iff {f : Framing} {removed : List NodeId} {r : Bytes × List Entry} :
    f.split doc removed = .ok r ↔ f.fault? = none ∧ Decodes doc f.blocks ∧
      r = (valueOf (others doc f.blocks), survivors doc removed f.blocks) := by
  -- The loop, from any bytes and entries collected so far.
  have hfold : ∀ (bs : List Block) (bytes : Bytes) (es : List Entry), bs.foldlM
      (fun (x : Bytes × List Entry) (b : Block) =>
        if b.doc = doc then
          b.entries.map fun es => (x.1, x.2 ++ es.filter fun e => !removed.contains e.node)
        else .ok (x.1 ++ b.raw, x.2)) (bytes, es) = (.ok r : Except Error _) ↔
      Decodes doc bs ∧
        r = (bytes ++ valueOf (others doc bs), es ++ survivors doc removed bs) := by
    intro bs
    induction bs with
    | nil =>
      intro bytes es
      simp [others, survivors, entriesIn, Decodes, pure, Except.pure, eq_comm]
    | cons b bs ih =>
      intro bytes es
      rw [List.foldlM_cons]
      by_cases hdoc : b.doc = doc
      · simp only [if_pos hdoc]
        cases hb : b.entries with
        -- A block of the document that cannot be decoded stops the loop.
        | error e =>
          refine ⟨fun h => ?_, fun h => ?_⟩
          · cases h
          · rw [h.1 b (.head _) hdoc] at hb
            cases hb
        | ok es' =>
          have hrest := ih bytes (es ++ es'.filter fun e => !removed.contains e.node)
          have hcontent := content_of_entries hb
          simpa [Decodes, others, survivors, entriesIn, hdoc, hb, hcontent, bind, Except.bind,
            Except.map] using hrest
      -- A block of another document goes to the bytes as it is.
      · have hrest := ih (bytes ++ b.raw) es
        simpa [Decodes, others, survivors, entriesIn, hdoc, bind, Except.bind] using hrest
  rw [split, fold_eq_ok_iff]
  have hall := hfold f.blocks [] []
  rw [List.nil_append, List.nil_append] at hall
  exact and_congr_right fun _ => hall

end Framing

namespace Index

open Block

/-- Removing nodes of a document rewrites the blocks of a value, if the value can be cut into
blocks and those of the document can be decoded. -/
theorem withoutNodes_eq_ok_iff {doc : DocId} {removed : List NodeId} {value value' : Bytes} :
    withoutNodes doc removed value = .ok value' ↔
      ∃ bs, scan value = ⟨bs, none⟩ ∧ Decodes doc bs ∧
        value' = valueOf (rewritten doc removed bs) := by
  -- What is written behind the other blocks is the merged block, if anything survives.
  have hmerged : ∀ bs : List Block, (if (survivors doc removed bs).isEmpty then
      .ok (valueOf (others doc bs))
      else .ok (valueOf (others doc bs) ++
        Block.encode doc .ordered (Entry.arrange (survivors doc removed bs)))) =
      (.ok (valueOf (rewritten doc removed bs)) : Except Error Bytes) := by
    intro bs
    rw [rewritten, merged]
    split
    · rw [List.append_nil]
    · rw [valueOf_append]
      simp
  -- The rewriting fails exactly where the value cannot be split.
  rw [withoutNodes]
  constructor
  · intro h
    cases hsplit : (scan value).split doc removed with
    | error e =>
      rw [hsplit] at h
      cases h
    | ok r =>
      obtain ⟨hfault, hdecodes, rfl⟩ := Framing.split_eq_ok_iff.mp hsplit
      rw [hsplit] at h
      refine ⟨(scan value).blocks, by rw [← hfault], hdecodes, ?_⟩
      exact (Except.ok.inj ((hmerged _).symm.trans h)).symm
  · rintro ⟨bs, hscan, hdecodes, rfl⟩
    rw [hscan, Framing.split_eq_ok_iff.mpr ⟨rfl, hdecodes, rfl⟩]
    exact hmerged bs

/-- Removing nodes of a document rewrites intact blocks. -/
theorem withoutNodes_eq {bs : List Block} (h : Intact bs) (doc : DocId) (removed : List NodeId) :
    withoutNodes doc removed (valueOf bs) = .ok (valueOf (rewritten doc removed bs)) :=
  withoutNodes_eq_ok_iff.mpr ⟨bs, h.scan_eq, h.decodes doc, rfl⟩

/-- The blocks of a value; of no value, none. -/
theorem blocksOf_of_getD {value? : Option Bytes} {bs : List Block} (hbs : Block.Intact bs)
    (h : value?.getD [] = Block.valueOf bs) : blocksOf value? = bs :=
  blocksOf_of_scan_eq (by rw [h, hbs.scan_eq])

/-- The blocks of a value that is made of intact ones are these. -/
theorem blocksOf_valueOf {bs : List Block} (h : Block.Intact bs) :
    blocksOf (some (Block.valueOf bs)) = bs :=
  blocksOf_of_getD h rfl

end Index

namespace Block

/-! ## Blocks as a map -/

section Map

variable {bs cs : List Block} {doc doc' : DocId} {es : List Entry} {n : NodeId}

/-- The address of a node of a document: that of the first entry. -/
def addressIn (doc : DocId) (bs : List Block) (n : NodeId) : Option Address :=
  ((entriesIn doc bs).find? (·.node == n)).map (·.address)

/-- Without blocks no node has an address. -/
@[simp] theorem addressIn_nil : addressIn doc [] n = none := rfl

/-- The entries of a document in two lists of blocks are those in the first and then those in the
second. -/
theorem entriesIn_append (doc : DocId) (bs cs : List Block) :
    entriesIn doc (bs ++ cs) = entriesIn doc bs ++ entriesIn doc cs := by
  simp [entriesIn]

/-- A node has the address of the first list, or else that of the second. -/
theorem addressIn_append :
    addressIn doc (bs ++ cs) n = (addressIn doc bs n).or (addressIn doc cs n) := by
  rw [addressIn, entriesIn_append, List.find?_append, Option.map_or]
  rfl

/-- Without blocks of the document its nodes have no address. -/
theorem addressIn_of_forall_ne (h : ∀ b ∈ bs, b.doc ≠ doc) (n : NodeId) :
    addressIn doc bs n = none := by
  have hfilter : bs.filter (·.doc == doc) = [] :=
    List.filter_eq_nil_iff.mpr fun b hb hdoc => h b hb (by simpa using hdoc)
  rw [addressIn, entriesIn, hfilter]
  rfl

/-- A document with a block is held with a node. -/
theorem exists_addressIn_ne_none (hbs : Intact bs) (h : ∃ b ∈ bs, b.doc = doc) :
    ∃ n, addressIn doc bs n ≠ none := by
  obtain ⟨b, hb, hdoc⟩ := h
  -- No block is empty, so this one has an entry.
  obtain ⟨e, he⟩ := List.exists_mem_of_ne_nil _ (hbs.nonempty b hb)
  have hmem : e ∈ entriesIn doc bs := mem_entriesIn.mpr ⟨b, hb, hdoc, he⟩
  refine ⟨e.node, fun hnone => ?_⟩
  rw [addressIn, Option.map_eq_none_iff, List.find?_eq_none] at hnone
  exact hnone e hmem (by simp)

/-- A written block gives its nodes the addresses in its entries. -/
theorem addressIn_ofEntries {order : BlockOrder} (h : Entry.FitBlock es) :
    addressIn doc' [ofEntries doc order es] n =
      if doc = doc' then (es.find? (·.node == n)).map (·.address) else none := by
  by_cases hd : doc = doc'
  · subst hd
    simp [addressIn, entriesIn, content_ofEntries doc order h]
  · simp [addressIn, entriesIn, hd]

/-- Leaving out a document takes its nodes out of the map, and no others. -/
theorem addressIn_others :
    addressIn doc' (others doc bs) n = if doc' = doc then none else addressIn doc' bs n := by
  have hfilter : (others doc bs).filter (·.doc == doc') =
      if doc' = doc then [] else bs.filter (·.doc == doc') := by
    rw [others, List.filter_filter]
    split
    · next hd => simp [hd]
    · next hd =>
      refine List.filter_congr fun b _ => ?_
      by_cases hb : b.doc = doc' <;> simp [hb, hd]
  rw [addressIn, entriesIn, hfilter]
  split <;> rfl

/-- The surviving entries are those that are not removed. -/
theorem find?_survivors {removed : List NodeId} :
    (survivors doc removed bs).find? (·.node == n) =
      if n ∈ removed then none else (entriesIn doc bs).find? (·.node == n) := by
  rw [survivors, List.find?_filter]
  split
  · next hn =>
    refine List.find?_eq_none.mpr fun e _ => ?_
    by_cases he : e.node = n <;> simp [he, hn]
  · next hn =>
    refine congrArg (List.find? · _) (funext fun e => ?_)
    by_cases he : e.node = n <;> simp [he, hn]

/-- A removal takes out the listed nodes of the document and nothing else. -/
theorem addressIn_rewritten {removed : List NodeId} (h : Intact bs)
    (hlength : (Entry.encodeBody (Entry.arrange (survivors doc removed bs))).length < UInt32.size) :
    addressIn doc' (rewritten doc removed bs) n =
      if doc' = doc ∧ n ∈ removed then none else addressIn doc' bs n := by
  -- The merged block holds the first entry of every node that survives.
  have hmerged : addressIn doc' (merged doc (survivors doc removed bs)) n =
      if doc = doc' then ((survivors doc removed bs).find? (·.node == n)).map (·.address)
      else none := by
    rw [merged]
    split
    · next hempty =>
      rw [List.isEmpty_iff.mp hempty]
      simp
    · rw [addressIn_ofEntries ((h.decodes doc).fitBlock_survivors hlength), Entry.find?_arrange]
  rw [rewritten, addressIn_append, addressIn_others, hmerged, find?_survivors]
  -- For the document itself only the merged block counts, for others only theirs.
  by_cases hd : doc' = doc
  · subst hd
    by_cases hn : n ∈ removed <;> simp [hn, addressIn]
  · simp [hd, Ne.symm hd]

end Map

end Block

end XmlIndex
