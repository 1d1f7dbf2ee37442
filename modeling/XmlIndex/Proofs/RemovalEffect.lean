import Mathlib
import XmlIndex.Proofs.OpenCalls

/-! # The effect of a removal

A removal rewrites the value of one name and touches nothing else.  Of the value it decodes the
blocks of its document only; those of other documents are copied as they are, whatever their
bodies.  What survives of the document is one ordered block behind them, or nothing
(`Block.LeftOver`).  `Index.removeNodes_rewritesOnly` says this with the address of the value, and
that a removal that fails has changed no key. -/

namespace XmlIndex

namespace Block

/-- What is left of a document with these surviving entries: one ordered block that has every node
once, with its first address, or no block. -/
inductive LeftOver (doc : DocId) (survivors : List Entry) : List Block → Prop
  | nothing (gone : survivors = []) : LeftOver doc survivors []
  | oneBlock {b : Block} {kept : List Entry} (remains : survivors ≠ []) (ofDoc : b.doc = doc)
      (ordered : b.order = .ordered) (framed : b.WellFramed) (decoded : b.entries = .ok kept)
      (ascending : kept.Pairwise fun a b => a.node < b.node)
      (first : ∀ n, kept.find? (·.node == n) = survivors.find? (·.node == n)) :
      LeftOver doc survivors [b]

variable {bs : List Block} {doc : DocId} {removed : List NodeId}

theorem LeftOver.framed {survivors : List Entry} (h : LeftOver doc survivors bs) :
    ∀ b ∈ bs, b.WellFramed := by
  cases h with
  | nothing => exact fun b hb => absurd hb List.not_mem_nil
  | oneBlock _ _ _ framed _ _ _ => exact List.forall_mem_singleton.mpr framed

/-- The surviving entries are merged into what is left, as long as their block has a length that
can be written. -/
theorem leftOver_merged (h : Decodes doc bs)
    (hlength : (Entry.encodeBody (Entry.arrange (survivors doc removed bs))).length < UInt32.size) :
    LeftOver doc (survivors doc removed bs) (merged doc (survivors doc removed bs)) := by
  have hfits := h.fitBlock_survivors hlength
  rw [merged]
  split
  · next hempty => exact .nothing (List.isEmpty_iff.mp hempty)
  · next hsome =>
    exact .oneBlock (fun hnil => hsome (List.isEmpty_iff.mpr hnil)) rfl rfl
      (wellFramed_ofEntries doc .ordered hfits) (entries_ofEntries doc .ordered hfits)
      (Entry.ascending_arrange _) (Entry.find?_arrange _)

end Block

namespace Index

open Block

/-- A removal leaves under the key of its name the blocks of the other documents byte for byte, and
behind them what is left of the document.  The value keeps its address, and all other keys keep
theirs and their bytes.  If it fails no key has changed, and it does not fail if nothing stands in
its way but what other documents have under the key. -/
theorem removeNodes_rewritesOnly (document : Document) (name : QName) (removed : List NodeId)
    (i : Index) :
    (∀ i', removeNodes document name removed i = .ok () i' → ∃ k bs own,
      Key.ofName name.kind document.collection name i.symbols = .ok k i'.symbols ∧
      scan ((i.store.value? k.toBytes).getD []) = ⟨bs, none⟩ ∧
      ((Entry.encodeBody (Entry.arrange (survivors document.id removed bs))).length <
          UInt32.size →
        LeftOver document.id (survivors document.id removed bs) own ∧
          scan (valueOf (others document.id bs ++ own)) = ⟨others document.id bs ++ own, none⟩) ∧
      ∀ key, i'.store.entries.get? key =
        if key = k.toBytes then
          some ⟨(i.store.address? key).getD i.store.nextAddress,
            valueOf (others document.id bs ++ own)⟩
        else i.store.entries.get? key) ∧
    (∀ e i', removeNodes document name removed i = .error e i' →
      i'.store.SameUpToPlan i.store) ∧
    (∀ k t bs, i.store.Open →
      Key.ofName name.kind document.collection name i.symbols = .ok k t →
      scan ((i.store.value? k.toBytes).getD []) = ⟨bs, none⟩ → Decodes document.id bs →
      ∃ i', removeNodes document name removed i = .ok () i') := by
  refine ⟨fun i' h => ?_, fun e i' h => (removeNodes_eq_error h).1,
    fun k t bs ho hof hscan hdecodes => ?_⟩
  · obtain ⟨k, value, hof, hvalue, hstore⟩ := removeNodes_replaces h
    obtain ⟨bs, hscan, hdecodes, rfl⟩ := withoutNodes_eq_ok_iff.mp hvalue
    refine ⟨k, bs, merged document.id (survivors document.id removed bs), hof, hscan,
      fun hlength => ?_, fun key => ?_⟩
    · have hleft := leftOver_merged hdecodes hlength
      -- The foreign blocks were framed before, and stand there byte for byte.
      have hothers := (scan_eq_iff.mp hscan).2
      refine ⟨hleft, scan_eq_iff.mpr ⟨rfl, List.forall_mem_append.mpr ⟨fun b hb => ?_, ?_⟩⟩⟩
      · exact hothers b (List.mem_filter.mp hb).1
      · exact hleft.framed
    · rw [hstore.entries, Store.get?_replaced, rewritten]
      split
      · next hkey => rw [hkey]
      · rfl
  · obtain ⟨i', hok, _⟩ := exists_removeNodes_of_withoutNodes removed ho hof
      (withoutNodes_eq_ok_iff.mpr ⟨bs, hscan, hdecodes, rfl⟩)
    exact ⟨i', hok⟩

/-- Two blocks of document 1, with the node 1.2 in both, and in front of each a block of another
document that cannot be decoded. -/
def interleavedBlocks : List Block :=
  [⟨2, .unordered, 1, 1, [2, 1, 1, 1, 0, 0, 0, 255], [255]⟩,
    ofEntries 1 .ordered [⟨⟨[1]⟩, ⟨10⟩⟩, ⟨⟨[1, 2]⟩, ⟨11⟩⟩],
    ⟨3, .ordered, 5, 0, [3, 0, 5, 0, 0, 0, 0], []⟩,
    ofEntries 1 .unordered [⟨⟨[1, 2]⟩, ⟨12⟩⟩, ⟨⟨[1, 1]⟩, ⟨13⟩⟩]]

/-- An index with these blocks as its one value. -/
def interleaved : Index where
  store := ({ name := "nodes", timeout := ⟨100⟩ } : Store).place (Key.verbatim 7 "id").toBytes
    (valueOf interleavedBlocks)
  symbols := .empty
  progressStep := 10

theorem removeNodes_interleaved :
    ∃ i' own, removeNodes ⟨1, 7, "/db/a.xml"⟩ { kind := .attrId, localName := "id" } [⟨[1]⟩]
        interleaved = .ok () i' ∧
      LeftOver 1 [⟨⟨[1, 2]⟩, ⟨11⟩⟩, ⟨⟨[1, 2]⟩, ⟨12⟩⟩, ⟨⟨[1, 1]⟩, ⟨13⟩⟩] own ∧
      i'.store.entries.get? (Key.verbatim 7 "id").toBytes =
        some ⟨1, [2, 1, 1, 1, 0, 0, 0, 255] ++ [3, 0, 5, 0, 0, 0, 0] ++ valueOf own⟩ := by
  obtain ⟨heffect, _, hgoes⟩ := removeNodes_rewritesOnly ⟨1, 7, "/db/a.xml"⟩
    { kind := .attrId, localName := "id" } [⟨[1]⟩] interleaved
  have hscan : scan ((interleaved.store.value? (Key.verbatim 7 "id").toBytes).getD []) =
      ⟨interleavedBlocks, none⟩ := by cbv
  have hfirst : Entry.FitBlock [⟨⟨[1]⟩, ⟨10⟩⟩, ⟨⟨[1, 2]⟩, ⟨11⟩⟩] :=
    ⟨by simp [Entry.Storable, NodeId.Valid, UInt32.size], by cbv⟩
  have hsecond : Entry.FitBlock [⟨⟨[1, 2]⟩, ⟨12⟩⟩, ⟨⟨[1, 1]⟩, ⟨13⟩⟩] :=
    ⟨by simp [Entry.Storable, NodeId.Valid, UInt32.size], by cbv⟩
  have hdecodes : Decodes 1 interleavedBlocks := by
    intro b hb hdoc
    simp only [interleavedBlocks, List.mem_cons, List.not_mem_nil, or_false] at hb
    -- The first and the third block are not of the document.
    rcases hb with rfl | rfl | rfl | rfl
    · exact absurd hdoc (by decide)
    · exact (sound_ofEntries 1 hfirst fun _ => List.pairwise_pair.mpr (by decide)).entries_eq
    · exact absurd hdoc (by decide)
    · exact (sound_ofEntries 1 hsecond fun h => BlockOrder.noConfusion h).entries_eq
  have hsurvivors : survivors 1 [⟨[1]⟩] interleavedBlocks =
      [⟨⟨[1, 2]⟩, ⟨11⟩⟩, ⟨⟨[1, 2]⟩, ⟨12⟩⟩, ⟨⟨[1, 1]⟩, ⟨13⟩⟩] := by
    rw [survivors, entriesIn]
    simp [interleavedBlocks, content_ofEntries 1 _ hfirst, content_ofEntries 1 _ hsecond]
  -- Nothing stands in the way of the removal, so it goes through.
  obtain ⟨i', hok⟩ := hgoes _ _ _ ⟨rfl, rfl, fun _ => rfl⟩ rfl hscan hdecodes
  obtain ⟨k, bs, own, hof, hscan', hleft, hentries⟩ := heffect i' hok
  -- The key and the blocks are those that were stored.
  obtain ⟨rfl, _⟩ := EStateM.Result.ok.inj hof
  obtain ⟨rfl, _⟩ := Framing.mk.inj (hscan.symm.trans hscan')
  rw [hsurvivors] at hleft
  refine ⟨i', own, hok, (hleft (by cbv)).1, ?_⟩
  rw [hentries, if_pos rfl, valueOf_append]
  rfl

end Index

end XmlIndex
