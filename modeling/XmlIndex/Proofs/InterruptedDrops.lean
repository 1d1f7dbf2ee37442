import Mathlib
import XmlIndex.Proofs.DropWalks

/-! # Drops that are interrupted

A drop that is stopped leaves the keys that it has come to stripped, and all others as they were.
Stripping a key again changes nothing and counts nothing, so whoever starts again, as often as it
takes, ends where one drop without a stop would have ended, and has written as many values
(`Index.DroppedInParts.strips`).  `Index.dropDocument_inParts` says this together with what one
drop does, whether it succeeds or fails. -/

namespace XmlIndex

namespace Index

variable {document : Document} {doc : DocId} {i i₁ i' : Index} {n m : Nat} {keys : List Bytes}
  {s s' : Store}

/-- The keys that dropping a document goes through, family by family and ascending in each. -/
def documentKeys (i : Index) (document : Document) : List Bytes :=
  i.store.keysIn document.collection NameKind.all

/-- A document is dropped in the end, after any number of attempts that were told to stop.  In all
of them `n` values were written. -/
inductive DroppedInParts (document : Document) : Index → Nat → Index → Prop
  | completed {stop : Nat → Bool} {i i' : Index} {n : Nat}
      (dropped : dropDocument document stop i = .ok n i') : DroppedInParts document i n i'
  | stopped {stop : Nat → Bool} {i i₁ i' : Index} {n m : Nat}
      (attempt : dropDocument document stop i =
        .error (.removalStopped document.uri n) i₁)
      (rest : DroppedInParts document i₁ m i') : DroppedInParts document i (n + m) i'

/-! ## Starting again -/

/-- What has been cut can still be read. -/
theorem readableAt_of_cutAt {key : Bytes} (h : Store.CutAt doc keys s s')
    (hread : s.ReadableAt key) : s'.ReadableAt key := by
  intro value hv
  -- A cut value consists of blocks that were framed before.
  by_cases hkey : key ∈ keys
  · rw [h.value?_of_mem hkey] at hv
    obtain ⟨value', hv', rfl⟩ := Option.map_eq_some_iff.mp hv
    have hscan : Block.scan value' = ⟨(Block.scan value').blocks, none⟩ := by rw [← hread _ hv']
    rw [Block.scan_cut hscan]
  · rw [h.value?_of_not_mem hkey] at hv
    exact hread value hv

/-- In what has been cut there is no block of the document left to count. -/
theorem countWith_of_cutAt (h : Store.CutAt doc keys s s')
    (hread : ∀ key ∈ keys, s.ReadableAt key) : countWith s' doc keys = 0 := by
  refine List.countP_eq_zero.mpr fun key hkey => ?_
  rw [h.value?_of_mem hkey]
  cases hv : s.value? key with
  | none => exact Bool.false_ne_true
  | some value =>
    have hscan : Block.scan value = ⟨(Block.scan value).blocks, none⟩ := by
      rw [← hread key hkey value hv]
    rw [Option.map_some, hasBlockOf, blocksOf, Block.scan_cut hscan, Block.others, List.any_filter]
    simp

theorem documentKeys_of_cutAt (h : Store.CutAt doc keys i.store i'.store) (document : Document) :
    i'.documentKeys document = i.documentKeys document :=
  Store.keysIn_congr fun key _ => h.isSome_value? key

/-- An attempt that is stopped has stripped the keys in front of some point. -/
theorem strips_of_stopped {stop : Nat → Bool}
    (hread : ∀ key ∈ i.documentKeys document, i.store.ReadableAt key)
    (h : dropDocument document stop i = .error (.removalStopped document.uri n) i₁) :
    i₁ = { i with store := i₁.store } ∧ ∃ done waiting, i.documentKeys document = done ++ waiting ∧
      Store.CutAt document.id done i.store i₁.store ∧ n = countWith i.store document.id done := by
  obtain ⟨hi, ⟨_, _, hlock⟩ | ⟨done, waiting, d, hsplit, hstripped, hcause⟩⟩ := dropDocument_halts h
  · cases hlock
  · refine ⟨hi, done, waiting, hsplit, hstripped.cut, ?_⟩
    have htally := hstripped.tally_of_start
    -- No other reason to halt has this error, since the values can be read.
    cases hcause with
    | stopped told => rw [htally]
    | @refused key waiting _ goesOn cause =>
      cases cause with
      | unreadable stored fault =>
        have hmem : key ∈ i.documentKeys document := by
          rw [documentKeys, hsplit]
          exact List.mem_append_right _ (.head _)
        rw [hread key hmem _ stored] at fault
        cases fault

/-- However many attempts it takes, all keys are stripped in the end, and every value with a block
of the document was written once. -/
theorem DroppedInParts.strips (h : DroppedInParts document i n i')
    (hread : ∀ key ∈ i.documentKeys document, i.store.ReadableAt key) :
    i' = { i with store := i'.store } ∧
      Store.CutAt document.id (i.documentKeys document) i.store i'.store ∧
      n = countWith i.store document.id (i.documentKeys document) := by
  -- Every attempt strips the keys up to where it was stopped, and the next one begins at the first
  -- key again.
  induction h with
  | completed dropped =>
    obtain ⟨hi, d, rfl, hstripped⟩ := dropDocument_strips dropped
    exact ⟨hi, hstripped.cut, congrArg Dropped.written hstripped.tally_of_start⟩
  | @stopped stop i i₁ i' n m attempt rest ih =>
    obtain ⟨hi₁, done, waiting, hsplit, hcut, rfl⟩ := strips_of_stopped hread attempt
    have hkeys := documentKeys_of_cutAt hcut document
    rw [hkeys] at ih
    obtain ⟨hi', hrest, hm⟩ := ih fun key hkey => readableAt_of_cutAt hcut (hread key hkey)
    have hdone : ∀ key ∈ done, key ∈ i.documentKeys document := fun key hkey => by
      rw [hsplit]
      exact List.mem_append_left _ hkey
    refine ⟨by rw [hi', hi₁], ?_, ?_⟩
    · -- The keys that are done are stripped a second time.
      refine (hcut.append hrest fun key hkey _ => hread key (hdone key hkey)).congr fun key => ?_
      rw [List.mem_append]
      exact ⟨fun hor => hor.elim (hdone key) id, .inr⟩
    · have hnodup := i.store.nodup_keysIn document.collection (show NameKind.all.Nodup by decide)
      rw [show i.store.keysIn document.collection NameKind.all = _ from hsplit] at hnodup
      have hwaiting : countWith i₁.store document.id waiting =
          countWith i.store document.id waiting :=
        countWith_congr _ fun key hkey => hcut.value?_of_not_mem fun hmem =>
          (List.nodup_append'.mp hnodup).2.2 hmem hkey
      -- Those stripped by the first attempt are not written again.
      have hzero := countWith_of_cutAt hcut fun key hkey => hread key (hdone key hkey)
      rw [hm, hsplit, countWith_append, countWith_append, hzero, hwaiting, Nat.zero_add]

/-- Two stores with the same keys cut out are the same, up to planned failures. -/
theorem eq_of_cutAt {s'' : Store} (h : Store.CutAt doc keys s s')
    (h' : Store.CutAt doc keys s s'') : s'' = { s' with planned := s''.planned } := by
  have hentries : s''.entries = s'.entries :=
    SortedMap.ext_get? fun key => (h'.slots key).trans (h.slots key).symm
  rw [h'.rest.eq, h.rest.eq, hentries]

/-! ## Dropping in parts -/

/-- A drop that succeeds has cut the document out of every value of its collection and out of no
other, and answers how many had a block of it.  One that fails did not get the lock, or has come to
the keys in front of one where it was stopped or refused, and has left that one and those behind it
as they were.  If the values can be read, it may be stopped and started again at will: it ends in
the same store, after the same number of writes, as if it had not been stopped. -/
theorem dropDocument_inParts (document : Document) (i : Index) :
    (∀ stop n i', dropDocument document stop i = .ok n i' →
      i' = { i with store := i'.store } ∧
      n = countWith i.store document.id (i.documentKeys document) ∧
      Strips document stop (i.documentKeys document) {} i.store
        ⟨(i.documentKeys document).length, n⟩ i'.store) ∧
    (∀ stop e i', dropDocument document stop i = .error e i' →
      i' = { i with store := i'.store } ∧
      ((i.store.isFree .write = false ∧ i'.store = i.store ∧
          e = .lockUnavailable .write i.store.name i.store.timeout.toText) ∨
        ∃ done waiting, i.documentKeys document = done ++ waiting ∧
          Strips document stop done {} i.store
            ⟨done.length, countWith i.store document.id done⟩ i'.store ∧
          Halts document stop i.store ⟨done.length, countWith i.store document.id done⟩
            waiting e)) ∧
    ((∀ key ∈ i.documentKeys document, i.store.ReadableAt key) →
      (∀ n i', DroppedInParts document i n i' → ∀ stop m i'',
        dropDocument document stop i = .ok m i'' →
        m = n ∧ i'' = { i' with store := { i'.store with planned := i''.store.planned } }) ∧
      (i.store.Open → ∀ stop, (∃ n i', dropDocument document stop i = .ok n i') ∨
        ∃ asked n i₁, stop asked = true ∧
          dropDocument document stop i = .error (.removalStopped document.uri n) i₁ ∧
          i₁.store.Open ∧ ∀ key ∈ i₁.documentKeys document, i₁.store.ReadableAt key)) := by
  refine ⟨fun stop n i' h => ?_, fun stop e i' h => ?_, fun hread =>
    ⟨fun n i' hparts stop m i'' h => ?_, fun ho stop => ?_⟩⟩
  · obtain ⟨hi, d, rfl, hstripped⟩ := dropDocument_strips h
    obtain rfl := hstripped.tally_of_start
    exact ⟨hi, rfl, hstripped⟩
  · obtain ⟨hi, hlock | ⟨done, waiting, d, hsplit, hstripped, hcause⟩⟩ := dropDocument_halts h
    · exact ⟨hi, .inl hlock⟩
    · obtain rfl := hstripped.tally_of_start
      exact ⟨hi, .inr ⟨done, waiting, hsplit, hstripped, hcause⟩⟩
  -- In parts or at once, every key is stripped in the end.
  · obtain ⟨hi', hcut, rfl⟩ := hparts.strips hread
    obtain ⟨hi'', hcut', rfl⟩ := (DroppedInParts.completed h).strips hread
    refine ⟨rfl, ?_⟩
    -- Both have stripped the same keys of the same store.
    have hstore := eq_of_cutAt hcut hcut'
    rw [hi'', hi']
    exact congrArg (fun s => { i with store := s }) hstore
  · cases hrun : dropDocument document stop i with
    | ok n i' => exact .inl ⟨n, i', rfl⟩
    | error e i₁ =>
      obtain ⟨_, ⟨hfree, _⟩ | ⟨done, waiting, d, hsplit, hstripped, hcause⟩⟩ :=
        dropDocument_halts hrun
      · rw [ho.free] at hfree
        cases hfree
      -- The keys still waiting can be read, so only the word to stop can have ended the walk.
      · obtain ⟨hstop, rfl⟩ := hcause.told ho fun key hkey => hread key (by
          rw [documentKeys, hsplit]
          exact List.mem_append_right _ hkey)
        have hcut := hstripped.cut
        refine .inr ⟨d.asked, d.written, i₁, hstop, rfl, ?_, fun key hkey => ?_⟩
        · exact ⟨(hcut.isFree _).trans ho.free, hcut.readOnly.trans ho.writable, hcut.calm ho.calm⟩
        · rw [documentKeys_of_cutAt hcut] at hkey
          exact readableAt_of_cutAt hcut (hread key hkey)

/-- An index with a block of document 1 under two keys, under one of them behind a block of another
document that cannot be decoded. -/
def underTwoKeys : Index where
  store := (({ name := "nodes", timeout := ⟨100⟩ } : Store).place (Key.verbatim 7 "id").toBytes
    [2, 1, 1, 1, 0, 0, 0, 255, 1, 1, 0, 0, 0, 0, 0]).place (Key.verbatim 7 "no").toBytes
    [1, 0, 5, 1, 0, 0, 0, 9]
  symbols := .empty
  progressStep := 10

theorem dropDocument_underTwoKeys :
    ∃ i₁ i' i'',
      dropDocument ⟨1, 7, "/db/a.xml"⟩ (· == 1) underTwoKeys =
        .error (.removalStopped "/db/a.xml" 1) i₁ ∧
      dropDocument ⟨1, 7, "/db/a.xml"⟩ (fun _ => false) i₁ = .ok 1 i' ∧
      dropDocument ⟨1, 7, "/db/a.xml"⟩ (fun _ => false) underTwoKeys = .ok 2 i'' ∧
      i''.store.entries = i'.store.entries := by
  have hread : ∀ key ∈ underTwoKeys.documentKeys ⟨1, 7, "/db/a.xml"⟩,
      underTwoKeys.store.ReadableAt key := by
    have hkeys : underTwoKeys.documentKeys ⟨1, 7, "/db/a.xml"⟩ =
        [(Key.verbatim 7 "id").toBytes, (Key.verbatim 7 "no").toBytes] := by cbv
    rw [hkeys]
    refine List.forall_mem_cons.mpr
      ⟨fun value hv => ?_, List.forall_mem_singleton.mpr fun value hv => ?_⟩
    · obtain rfl := Option.some.inj (hv.symm.trans rfl)
      cbv
    · obtain rfl := Option.some.inj (hv.symm.trans rfl)
      cbv
  -- The first attempt is stopped behind the first key, and the second one goes through.
  have hfirst := Action.eq_error_of_outcomeOf (e := .removalStopped "/db/a.xml" 1)
    (r := dropDocument ⟨1, 7, "/db/a.xml"⟩ (· == 1) underTwoKeys) (by cbv)
  have hsecond := Action.eq_ok_of_outcomeOf (a := 1)
    (r := dropDocument ⟨1, 7, "/db/a.xml"⟩ (fun _ => false)
      (Action.stateOf (dropDocument ⟨1, 7, "/db/a.xml"⟩ (· == 1) underTwoKeys))) (by cbv)
  have hwhole := Action.eq_ok_of_outcomeOf (a := 2)
    (r := dropDocument ⟨1, 7, "/db/a.xml"⟩ (fun _ => false) underTwoKeys) (by cbv)
  obtain ⟨_, _, hparts⟩ := dropDocument_inParts ⟨1, 7, "/db/a.xml"⟩ underTwoKeys
  obtain ⟨_, hi⟩ :=
    (hparts hread).1 _ _ (.stopped hfirst (.completed hsecond)) _ _ _ hwhole
  exact ⟨_, _, _, hfirst, hsecond, hwhole, by rw [hi]⟩

end Index

end XmlIndex
