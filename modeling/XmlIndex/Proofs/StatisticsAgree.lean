import XmlIndex.Proofs.AlikeReports
import XmlIndex.Proofs.BlockEdits

/-! # Statistics, census and data

The statistics of a collection and a census of it add up the headers of the same blocks in two
ways: over the keys, and over the names.  In an index that a run comes to they agree with each
other and with what the blocks hold (`Index.Run.statistics_agree`).

How many unordered blocks there are can be told without the store.  Every addition is written as
one, and stands until a removal merges the blocks of its document under the name or they are
dropped.  The additions outstanding after some edits (`Index.outstanding`) are under every name
those that unordered blocks stand there for, in stored order (`Index.Edits.pending_eq`). -/

namespace XmlIndex

open Index (blocksOf)
open Effect (Under)

/-! ## Additions outstanding -/

namespace Effect

variable {document document' : Document} {name name' q : QName} {kind : NameKind}
  {c : CollectionId}

/-- A name is under itself. -/
theorem under_self (document : Document) (name : QName) :
    Under document name name.kind document.collection name := ⟨rfl, rfl, rfl, fun _ => rfl⟩

/-- Of two names with one key a third one has the key of both or of neither. -/
theorem Under.congr (h : Under document' name' kind c q) :
    Under document name name'.kind document'.collection name' ↔ Under document name kind c q := by
  obtain ⟨rfl, rfl, hname, hnamespace⟩ := h
  simp only [Under, Key.SameHeading, hname]
  refine and_congr_right fun hkind => and_congr_right fun _ => and_congr_right fun _ => ?_
  exact imp_congr_right fun hne => by rw [hnamespace (hkind ▸ hne)]

end Effect

namespace Index

/-- The nodes of a name that were added to a document. -/
structure Addition where
  document : Document
  name : QName

namespace Edit

/-- The additions that an edit makes. -/
def additions : Edit → List Addition
  | write document name .unordered _ => [⟨document, name⟩]
  | write _ _ .ordered _ | merge _ _ _ | cut _ _ | clear _ _ => []

/-- The block of the addition is merged with others or dropped. -/
def Settles : Edit → Addition → Prop
  | write _ _ _ _, _ => False
  | merge document name _, a =>
    a.document.id = document.id ∧ Under document name a.name.kind a.document.collection a.name
  | cut document under, a =>
    a.document.id = document.id ∧
      a.document.collection = document.collection ∧ under a.name.kind a.name
  | clear collection kinds, a => a.document.collection = collection ∧ a.name.kind ∈ kinds

instance (e : Edit) (a : Addition) : Decidable (e.Settles a) :=
  match e with
  | write _ _ _ _ => inferInstanceAs (Decidable False)
  | merge _ _ _ => inferInstanceAs (Decidable (_ ∧ _))
  | cut _ _ => inferInstanceAs (Decidable (_ ∧ _ ∧ _))
  | clear _ _ => inferInstanceAs (Decidable (_ ∧ _))

/-- The outstanding additions after an edit. -/
def settle (l : List Addition) (e : Edit) : List Addition :=
  l.filter (¬ e.Settles ·) ++ e.additions

end Edit

/-- The additions that have been made and not settled since. -/
def outstanding (es : List Edit) : List Addition := es.foldl Edit.settle []

/-- The documents of the additions under a name. -/
def addedUnder (kind : NameKind) (c : CollectionId) (q : QName) (l : List Addition) : List DocId :=
  (l.filter fun a => Under a.document a.name kind c q).map (·.document.id)

/-- The documents of the unordered blocks. -/
def pending (bs : List Block) : List DocId :=
  (bs.filter (!·.order.isOrdered)).map (·.doc)

section Ledger

variable {kind : NameKind} {c : CollectionId} {q : QName} {l : List Addition} {bs : List Block}

/-- What was added first comes first. -/
theorem addedUnder_append (l l' : List Addition) :
    addedUnder kind c q (l ++ l') = addedUnder kind c q l ++ addedUnder kind c q l' := by
  rw [addedUnder, List.filter_append, List.map_append, addedUnder, addedUnder]

/-- If the additions under a name are taken or left by their document, so are the documents. -/
theorem addedUnder_filter {p : Addition → Bool} {r : DocId → Bool}
    (h : ∀ a, Under a.document a.name kind c q → p a = r a.document.id) :
    addedUnder kind c q (l.filter p) = (addedUnder kind c q l).filter r := by
  rw [addedUnder, addedUnder, List.filter_map, List.filter_filter, List.filter_filter]
  refine congrArg _ (List.filter_congr fun a _ => ?_)
  by_cases ha : Under a.document a.name kind c q
  · simp [ha, h a ha]
  · simp [ha]

/-- Additions under other names do not count. -/
theorem addedUnder_filter_eq_self {p : Addition → Bool}
    (h : ∀ a, Under a.document a.name kind c q → p a = true) :
    addedUnder kind c q (l.filter p) = addedUnder kind c q l := by
  rw [addedUnder_filter (r := fun _ => true) h, List.filter_true]

/-- The blocks of two lists, one after the other. -/
theorem pending_append (bs cs : List Block) : pending (bs ++ cs) = pending bs ++ pending cs := by
  rw [pending, List.filter_append, List.map_append, pending, pending]

/-- Without the blocks of a document. -/
theorem pending_others (doc : DocId) (bs : List Block) :
    pending (Block.others doc bs) = (pending bs).filter (· != doc) := by
  rw [pending, pending, Block.others, List.filter_map, List.filter_filter, List.filter_filter]
  exact congrArg _ (List.filter_congr fun b _ => Bool.and_comm _ _)

/-- What a removal merges into is an ordered block. -/
theorem pending_rewritten (doc : DocId) (removed : List NodeId) (bs : List Block) :
    pending (Block.rewritten doc removed bs) = (pending bs).filter (· != doc) := by
  have hmerged : pending (Block.merged doc (Block.survivors doc removed bs)) = [] := by
    unfold Block.merged
    split <;> rfl
  rw [Block.rewritten, pending_append, pending_others, hmerged, List.append_nil]

/-- Where an edit takes the unordered blocks of a document under a name, it settles the additions
of that document. -/
theorem addedUnder_settled (e : Edit) {doc : DocId}
    (h : ∀ a, Under a.document a.name kind c q → (e.Settles a ↔ a.document.id = doc)) :
    addedUnder kind c q (l.filter (¬ e.Settles ·)) = (addedUnder kind c q l).filter (· != doc) :=
  addedUnder_filter fun a ha => by rw [Bool.eq_iff_iff]; simp [h a ha]

/-- An edit that settles nothing under a name leaves its additions. -/
theorem addedUnder_unsettled (e : Edit)
    (h : ∀ a, Under a.document a.name kind c q → ¬ e.Settles a) :
    addedUnder kind c q (l.filter (¬ e.Settles ·)) = addedUnder kind c q l :=
  addedUnder_filter_eq_self fun a ha => by simpa using h a ha

/-- One edit keeps the additions in step with the unordered blocks. -/
theorem Edit.pending_apply {m : BlockMap} {e : Edit} (hfits : e.Fits m)
    (h : pending (m kind c q) = addedUnder kind c q l) :
    pending (e.apply m kind c q) = addedUnder kind c q (e.settle l) := by
  rw [settle, addedUnder_append]
  cases e with
  | write document name order entries =>
    rw [addedUnder_unsettled (write document name order entries) fun _ _ h => h, ← h]
    show pending (if Under document name kind c q then _ else _) = _
    -- Only an unordered block is an addition, and only under its name.
    cases order with
    | ordered =>
      split
      · exact pending_append _ _
      · exact (List.append_nil _).symm
    | unordered =>
      by_cases hunder : Under document name kind c q
      · rw [if_pos hunder, pending_append]
        simp [additions, addedUnder, hunder, pending, Block.ofEntries, BlockOrder.isOrdered]
      · simp [additions, addedUnder, hunder]
  -- A merge settles the additions of its document under its name.
  | merge document name removed =>
    show pending (if Under document name kind c q then _ else _) = _ ++ []
    rw [List.append_nil]
    split
    · next hunder =>
      rw [pending_rewritten, h]
      exact (addedUnder_settled (merge document name removed) fun a ha =>
        and_iff_left (ha.congr.mpr hunder)).symm
    · next hunder =>
      rw [h]
      exact (addedUnder_unsettled (merge document name removed) fun a ha hsettles =>
        hunder (ha.congr.mp hsettles.2)).symm
  | cut document under =>
    have hplace : ∀ a : Addition, Under a.document a.name kind c q →
        ((a.document.collection = document.collection ∧ under a.name.kind a.name) ↔
          (c = document.collection ∧ under kind q)) := by
      -- Names of one heading are cut out together.
      rintro a ⟨rfl, rfl, hheading⟩
      rw [hfits _ _ _ hheading]
    show pending (if c = document.collection ∧ under kind q then _ else _) = _ ++ []
    rw [List.append_nil]
    split
    · next hcut =>
      rw [pending_others, h]
      exact (addedUnder_settled (cut document under) fun a ha =>
        and_iff_left ((hplace a ha).mpr hcut)).symm
    · next hcut =>
      rw [h]
      exact (addedUnder_unsettled (cut document under) fun a ha hsettles =>
        hcut ((hplace a ha).mp hsettles.2)).symm
  -- Clearing settles all additions under the name, or none.
  | clear collection kinds =>
    show pending (if c = collection ∧ kind ∈ kinds then _ else _) = _ ++ []
    rw [List.append_nil]
    split
    · next hclear =>
      have hnone : addedUnder kind c q (l.filter (¬ (clear collection kinds).Settles ·)) =
          (addedUnder kind c q l).filter fun _ => false := by
        refine addedUnder_filter ?_
        rintro a ⟨rfl, rfl, _⟩
        simpa [Settles] using hclear
      rw [hnone, List.filter_false]
      rfl
    · next hclear =>
      rw [h]
      refine (addedUnder_unsettled (clear collection kinds) ?_).symm
      rintro a ⟨rfl, rfl, _⟩ hsettles
      exact hclear hsettles

/-- After any edits, the unordered blocks under a name are those of the additions outstanding
there. -/
theorem Edits.pending_eq {es : List Edit} {m : BlockMap} (h : Edits (fun _ _ _ => []) es m)
    (kind : NameKind) (c : CollectionId) (q : QName) :
    pending (m kind c q) = addedUnder kind c q (outstanding es) := by
  -- Induction on the edits, from blocks and additions that are in step.
  have hall : ∀ {m₀ m : BlockMap} {es : List Edit} {l : List Addition}, Edits m₀ es m →
      pending (m₀ kind c q) = addedUnder kind c q l →
      pending (m kind c q) = addedUnder kind c q (es.foldl Edit.settle l) := by
    intro m₀ m es l h hstart
    induction h generalizing l with
    | nil => exact hstart
    | cons fits rest ih => exact ih (Edit.pending_apply fits hstart)
  exact hall h rfl

end Ledger

/-! ## Adding up the keys of a collection -/

/-- The blocks of listed entries, one value after the other. -/
def blocksIn (es : List (Key × Bytes)) : List Block :=
  es.flatMap fun e => (Block.scan e.2).blocks

/-- Adding up over blocks is adding up over values. -/
theorem sum_map_blocksIn (g : Block → Nat) (es : List (Key × Bytes)) :
    ((blocksIn es).map g).sum = (es.map fun e => ((Block.scan e.2).blocks.map g).sum).sum := by
  rw [blocksIn, List.map_flatMap, List.flatMap, List.sum_flatten, List.map_map]
  rfl

/-- The nodes that the headers in a value declare. -/
def declaredNodes (value : Bytes) : Nat := ((Block.scan value).blocks.map (·.count.toNat)).sum

section Sums

variable {s : Store} {t : SymbolTable} {c : CollectionId} {es : List (Key × Bytes)}

/-- Adding up how often each entry is counted is counting for how many entries. -/
theorem sum_countP {α β : Type} {p : α → β → Bool} {r : β → Bool} {as : List α} {l : List β}
    (h : ∀ b ∈ l, as.countP (p · b) = if r b then 1 else 0) :
    (as.map fun a => l.countP (p a)).sum = l.countP r := by
  -- Induction on the entries; each is counted for one place or for none.
  induction l with
  | nil => simp
  | cons b l ih =>
    obtain ⟨hb, hl⟩ := List.forall_mem_cons.mp h
    have hsplit : ∀ as : List α, (as.map fun a => (b :: l).countP (p a)).sum =
        (as.map fun a => l.countP (p a)).sum + as.countP (p · b) := by
      intro as
      induction as with
      | nil => rfl
      | cons a as ih =>
        rw [List.map_cons, List.sum_cons, ih, List.map_cons, List.sum_cons, List.countP_cons,
          List.countP_cons]
        omega
    rw [hsplit, ih hl, hb, List.countP_cons]

/-- The additions that are outstanding in a collection stand each under one of its keys. -/
theorem countP_key_eq_one {l : List Addition} {a : Addition} (ha : a ∈ l) (hes : s.Lists c es)
    (hc : a.document.collection = c)
    (hblocks : pending (s.blocksUnder t a.name.kind c a.name) = addedUnder a.name.kind c a.name l) :
    es.countP (fun e => decide (Key.lookup? t a.name.kind c a.name = some e.1)) = 1 := by
  -- There is a block, so a value, and that under one key of the listing.
  have hadded : a.document.id ∈ addedUnder a.name.kind c a.name l := by
    refine List.mem_map.mpr ⟨a, List.mem_filter.mpr ⟨ha, ?_⟩, rfl⟩
    rw [← hc]
    exact decide_eq_true (Effect.under_self a.document a.name)
  rw [← hblocks] at hadded
  obtain ⟨b, hb, _⟩ := List.mem_map.mp hadded
  obtain ⟨value, hvalue⟩ : ∃ value, s.valueUnder t a.name.kind c a.name = some value := by
    cases hv : s.valueUnder t a.name.kind c a.name with
    | some value => exact ⟨value, rfl⟩
    | none =>
      rw [Store.blocksUnder, hv] at hb
      cases (List.mem_filter.mp hb).1
  obtain ⟨k, hk, hvalue⟩ := Option.bind_eq_some_iff.mp hvalue
  have hmem : (k, value) ∈ es := (hes.mem_iff k value).mpr ⟨(Key.kind_of_lookup? hk).2, hvalue⟩
  -- In a list without repeats, an element occurs once.
  rw [← List.count_eq_one_of_mem hes.nodup hmem, List.count]
  refine List.countP_congr fun e he => ?_
  rw [hk, decide_eq_true_iff, beq_iff_eq, Option.some.injEq]
  constructor
  · rintro rfl
    have hsame := hvalue.symm.trans (hes.value?_of_mem he)
    exact Prod.ext rfl (Option.some.inj hsame).symm
  · rintro rfl
    rfl

/-- The unordered blocks of a collection are as many as the additions outstanding in it. -/
theorem sum_unordered_eq {l : List Addition} (hes : s.Lists c es) (hs : s.KeysNamed t)
    (hblocks : ∀ kind q, pending (s.blocksUnder t kind c q) = addedUnder kind c q l) :
    (es.map fun e => (Block.scan e.2).blocks.countP (!·.order.isOrdered)).sum =
      l.countP (·.document.collection == c) := by
  -- Under a key are counted the additions whose name has this key.
  have hkey : ∀ e ∈ es, (Block.scan e.2).blocks.countP (!·.order.isOrdered) = l.countP fun a =>
      a.document.collection == c && decide (Key.lookup? t a.name.kind c a.name = some e.1) := by
    intro e he
    obtain ⟨q, _, hlookup, hscan⟩ := hes.exists_blocksUnder hs he
    have hlength := congrArg List.length (hblocks q.kind q)
    rw [pending, addedUnder, List.length_map, List.length_map, ← List.countP_eq_length_filter,
      ← List.countP_eq_length_filter] at hlength
    rw [hscan, hlength]
    refine List.countP_congr fun a _ => ?_
    simp only [decide_eq_true_iff, Bool.and_eq_true, beq_iff_eq]
    constructor
    · rintro ⟨hkind, hc, hheading⟩
      refine ⟨hc.symm, ?_⟩
      rw [Key.lookup?_of_sameHeading hheading, ← hkind, hlookup]
    · rintro ⟨hc, ha⟩
      obtain ⟨hkind, _, hheading⟩ := Key.lookup?_inj ha hlookup
      exact ⟨hkind.symm, hc.symm, hheading⟩
  -- So the sum counts every addition of the collection once.
  rw [List.map_congr_left hkey]
  refine sum_countP fun a ha => ?_
  by_cases hc : a.document.collection = c
  · simp only [hc, beq_self_eq_true, Bool.true_and, if_true]
    exact countP_key_eq_one ha hes hc (hblocks a.name.kind a.name)
  · simp [hc]

end Sums

/-! ## Statistics and census -/

section Reports

variable {i : Index} {c : CollectionId}

/-- The statistics add up the entries of a collection. -/
theorem exists_statistics (hs : i.store.IntactFor i.symbols) (hfree : i.store.isFree .read)
    (hcalm : i.store.planned .findEntries = 0) (c : CollectionId) :
    ∃ es, i.store.Lists c es ∧ statistics c i = .ok (Statistics.ofEntries c es) i := by
  obtain ⟨es, hentries, hes⟩ := entriesOf_lists hs.keys hcalm c
  refine ⟨es, hes, ?_⟩
  rw [statistics, onStore]
  refine Action.on_eq_ok_iff.mpr ⟨i.store, ?_, rfl⟩
  -- No value stops the walk.
  have hfault : ∀ e ∈ es, (Block.scan e.2).fault? = none := fun e he =>
    (hs.readable (hes.value?_of_mem he)).no_fault
  rw [Store.locked_of_isFree hfree, Action.bind_of_ok hentries,
    Statistics.foldlM_addValue hfault]
  refine Action.ofExcept_eq_ok_iff.mpr ⟨congrArg _ ?_, rfl⟩
  simp only [Nat.zero_add]
  rfl

/-- A census counts under a name what the headers there declare. -/
theorem nodes_addBlocks {q : QName} {value : Bytes}
    (h : i.store.valueUnder i.symbols q.kind c q = some value) :
    (({ name := q } : NameCount).addBlocks (blocksAmong i.store i.symbols [c] q)).nodes =
      declaredNodes value := by
  rw [blocksAmong, List.flatMap_singleton, Store.blocksUnder, h, NameCount.addBlocks_eq]
  exact Nat.zero_add _

/-- A census of one collection has a count for each of its keys: the nodes that the headers in
the value declare. -/
theorem perm_counts {es : List (Key × Bytes)} {counts : List NameCount}
    (hs : i.store.KeysNamed i.symbols) (hes : i.store.Lists c es)
    (hasc : counts.Pairwise fun a b => compare a.name b.name = .lt)
    (hmem : ∀ n, n ∈ counts ↔ IsCountOf i [c] n) :
    (counts.map (·.nodes)).Perm (es.map fun e => declaredNodes e.2) := by
  -- With the names the counts are told apart, and so are the keys.
  have hperm : (counts.map fun n => (some n.name, n.nodes)).Perm
      (es.map fun e => ((e.1.name i.symbols).toOption, declaredNodes e.2)) := by
    refine (List.perm_ext_iff_of_nodup ?_ (hes.nodup_measures hs _)).mpr ?_
    · refine List.Pairwise.map _ ?_ hasc
      intro n n' hlt heq
      exact SortedMap.ne_of_compare_eq_lt hlt (Option.some.inj (Prod.mk.inj heq).1)
    · rintro ⟨q?, nodes⟩
      cases q? with
      | none =>
        refine iff_of_false (fun h => ?_) (hes.none_notMem_measures hs _ nodes)
        obtain ⟨n, _, heq⟩ := List.mem_map.mp h
        cases (Prod.mk.inj heq).1
      | some q =>
        rw [hes.mem_measures hs, List.mem_map]
        constructor
        · rintro ⟨n, hn, heq⟩
          obtain ⟨hname, rfl⟩ := Prod.mk.inj heq
          obtain rfl := Option.some.inj hname
          obtain ⟨⟨hplain, c', hc', hsome⟩, hn⟩ := (hmem n).mp hn
          obtain rfl := List.mem_singleton.mp hc'
          obtain ⟨value, hvalue⟩ := Option.isSome_iff_exists.mp hsome
          refine ⟨hplain, ?_⟩
          rw [hvalue, Option.map_some, congrArg NameCount.nodes hn, nodes_addBlocks hvalue]
        · rintro ⟨hplain, hmeasure⟩
          obtain ⟨value, hvalue, rfl⟩ := Option.map_eq_some_iff.mp hmeasure
          -- A key with a value is counted under its name.
          refine ⟨({ name := q } : NameCount).addBlocks (blocksAmong i.store i.symbols [c] q),
            (hmem _).mpr ?_, ?_⟩
          · have hname : (({ name := q } : NameCount).addBlocks
                (blocksAmong i.store i.symbols [c] q)).name = q := by rw [NameCount.addBlocks_eq]
            rw [IsCountOf, hname]
            exact ⟨⟨hplain, c, .head _, by rw [hvalue]; rfl⟩, rfl⟩
          · rw [nodes_addBlocks hvalue, NameCount.addBlocks_eq]
  have hnodes := hperm.map Prod.snd
  rwa [List.map_map, List.map_map] at hnodes

/-- The statistics of a collection, a census of it and the blocks under its keys agree.  All values
can be read to their end and all blocks decoded; the additions are those outstanding. -/
structure StatisticsAgree (st : Statistics) (counts : List NameCount) (es : List (Key × Bytes))
    (additions : List Addition) : Prop where
  keys : st.keys = es.length
  names : counts.length = st.keys
  nodes : (counts.map (·.nodes)).sum = st.nodes
  to_end : ∀ e ∈ es, (Block.scan e.2).fault? = none
  decoded : ∀ b ∈ blocksIn es, b.entries = .ok b.content
  entries : st.nodes = ((blocksIn es).flatMap (·.content)).length
  blocks : st.blocks = (blocksIn es).length
  valueBytes : st.valueBytes = ((blocksIn es).map (·.raw.length)).sum
  unorderedBlocks : st.unorderedBlocks = additions.length

/-- The blocks of listed entries are sound. -/
theorem sound_of_mem_blocksIn {es : List (Key × Bytes)} (hs : i.store.IntactFor i.symbols)
    (hes : i.store.Lists c es) : ∀ b ∈ blocksIn es, b.Sound := by
  intro b hb
  obtain ⟨e, he, hb⟩ := List.mem_flatMap.mp hb
  obtain ⟨bs, hbs, hvalue⟩ := hs.values e.1.toBytes e.2 (hes.value?_of_mem he)
  rw [hvalue, hbs.scan_eq] at hb
  exact hbs.sound b hb

/-- The numbers agree if they are counted in the same blocks. -/
theorem statisticsAgree_ofEntries {es : List (Key × Bytes)} {counts : List NameCount}
    {l : List Addition} (hs : i.store.IntactFor i.symbols) (hes : i.store.Lists c es)
    (hcounts : (counts.map (·.nodes)).Perm (es.map fun e => declaredNodes e.2))
    (hblocks : ∀ kind q, pending (i.store.blocksUnder i.symbols kind c q) =
      addedUnder kind c q l) :
    StatisticsAgree (.ofEntries c es) counts es (l.filter (·.document.collection == c)) := by
  have hkeys : (Statistics.ofEntries c es).keys = es.length := by simp [Statistics.ofEntries]
  -- Counting entries and decoding them comes to the same in sound blocks.
  have hsound := sound_of_mem_blocksIn hs hes
  have hreadable := fun e he => hs.readable (hes.value?_of_mem (e := e) he)
  exact {
    keys := hkeys
    names := by
      have hlength := hcounts.length_eq
      rw [List.length_map, List.length_map] at hlength
      rw [hlength, hkeys]
    nodes := hcounts.sum_nat
    to_end := fun e he => (hreadable e he).no_fault
    decoded := fun b hb => (hsound b hb).entries_eq
    entries := by
      rw [← sum_count_eq hsound, sum_map_blocksIn]
      rfl
    blocks := by
      rw [blocksIn, List.length_flatMap]
      rfl
    valueBytes := by
      rw [sum_map_blocksIn]
      refine congrArg List.sum (List.map_congr_left fun e he => ?_)
      rw [← List.length_flatMap]
      -- A value is read to its end, so its blocks take all its bytes.
      exact (congrArg List.length (hreadable e he).to_end).symm
    unorderedBlocks := by
      rw [← List.countP_eq_length_filter]
      exact sum_unordered_eq hes hs.keys hblocks }

/-- In every state that a run comes to, the statistics of a collection agree with a census of it
and with what its blocks hold, if both get the lock.  The unordered blocks are as many as the
additions of the run to documents of the collection that no removal has merged and no dropping
has taken since. -/
theorem Run.statistics_agree {admits : Op → Prop} {calls : List (Op × Except Error Unit)}
    (h : Run admits calls i) :
    ∃ edits, History calls edits (i.store.blocksUnder i.symbols) ∧
      (i.store.isFree .read → i.store.planned .findEntries = 0 → ∀ c,
        ∃ es st counts, i.store.Lists c es ∧ statistics c i = .ok st i ∧
          census [c] i = .ok counts i ∧
          StatisticsAgree st counts es
            ((outstanding edits).filter (·.document.collection == c))) := by
  have hs := h.intact
  -- The additions are those of the history, and no block has to be looked at for them.
  obtain ⟨edits, hhistory⟩ := h.exists_history
  refine ⟨edits, hhistory, fun hfree hcalm c => ?_⟩
  obtain ⟨es, hes, hstatistics⟩ := exists_statistics hs hfree hcalm c
  obtain ⟨counts, hcensus, hasc, hmem⟩ := census_spec hs hfree hcalm [c]
  refine ⟨es, _, counts, hes, hstatistics, hcensus, ?_⟩
  exact statisticsAgree_ofEntries hs hes (perm_counts hs.keys hes hasc hmem) fun kind q =>
    hhistory.edits.pending_eq kind c q

/-- Of the two blocks of a document loaded in two parts one is an addition. -/
theorem statistics_agree_loadedTwice : ∃ edits es st counts,
    History [(.flush oneNode, .ok ()), (.flush anotherNode, .ok ())] edits
      (loadedTwice.store.blocksUnder loadedTwice.symbols) ∧
    addedUnder .attrId 7 { localName := "id", kind := .attrId } (outstanding edits) = [1] ∧
    statistics 7 loadedTwice = .ok st loadedTwice ∧
    census [7] loadedTwice = .ok counts loadedTwice ∧
    StatisticsAgree st counts es ((outstanding edits).filter (·.document.collection == 7)) := by
  obtain ⟨edits, hhistory, hall⟩ := run_loadedTwice.statistics_agree
  obtain ⟨es, st, counts, _, hstatistics, hcensus, hagree⟩ := hall rfl rfl 7
  refine ⟨edits, es, st, counts, hhistory, ?_, hstatistics, hcensus, hagree⟩
  -- What is outstanding in the history is what stands in the value.
  rw [← hhistory.edits.pending_eq, blocksUnder_loadedTwice]
  rfl

end Reports

end Index

end XmlIndex
