import XmlIndex.Index.Audit
import XmlIndex.Proofs.BlockEdits
import XmlIndex.Proofs.CensusCounts

/-! # What an audit finds

An audit of a document goes through all keys of its collection, the blocks of the document under
each and the entries of each, and ends at the first entry that the document does not answer with
the type and local name of the key.  Each of these walks judges the same of its part: it succeeds
if all entries in it are answered, and reports a corruption if one is not (`Audit.Judges`).

In an index that a run comes to, a key goes back to the names it was made of, so what an audit
judges can be said by names (`Index.Answered`), and its report has a line for each key with a
block of the document (`Index.IsReport`).  Every stored entry is that of a node which was
registered, so a document that answers as its nodes were registered passes
(`Index.Run.audit_verdict`). -/

namespace XmlIndex

open Block (entriesIn)
open Index (blocksOf)

namespace Audit

/-! ## Verdicts -/

/-- A check succeeds with this answer if something holds, and finds a corruption if not. -/
structure Judges {α : Type} (holds : Prop) (x : Except Error α) (answer : α) : Prop where
  ok : holds → x = .ok answer
  corrupted : ¬ holds → ∃ e, x = .error e ∧ e.kind = .corrupted

namespace Judges

variable {α β : Type} {P Q : Prop} {x : Except Error α} {a : α}

/-- What is judged may be put in other words. -/
theorem congr (h : Judges P x a) (hiff : P ↔ Q) : Judges Q x a :=
  ⟨fun hq => h.ok (hiff.mpr hq), fun hq => h.corrupted fun hp => hq (hiff.mp hp)⟩

/-- An answer without a check judges nothing. -/
theorem pure (a : α) : Judges True (.ok a) a := ⟨fun _ => rfl, fun h => absurd trivial h⟩

/-- Two checks, one after the other. -/
theorem bind {f : α → Except Error β} {b : β} (h : Judges P x a) (h' : Judges Q (f a) b) :
    Judges (P ∧ Q) (x >>= f) b := by
  refine ⟨fun ⟨hp, hq⟩ => ?_, fun hn => ?_⟩
  · rw [h.ok hp]
    exact h'.ok hq
  -- The first of the two that fails is the verdict.
  · by_cases hp : P
    · rw [h.ok hp]
      exact h'.corrupted fun hq => hn ⟨hp, hq⟩
    · obtain ⟨e, he, hkind⟩ := h.corrupted hp
      exact ⟨e, by rw [he]; rfl, hkind⟩

/-- A check succeeds exactly if what it judges holds. -/
theorem ok_iff (h : Judges P x a) : (∃ a', x = .ok a') ↔ P := by
  refine ⟨fun ⟨a', ha'⟩ => ?_, fun hp => ⟨a, h.ok hp⟩⟩
  by_contra hp
  obtain ⟨e, he, _⟩ := h.corrupted hp
  rw [ha'] at he
  cases he

/-- A walk in which every step is a check. -/
theorem foldlM {holds : α → Prop} {f : β → α → Except Error β} {go : β → α → β} {l : List α}
    (h : ∀ a ∈ l, ∀ b, Judges (holds a) (f b a) (go b a)) (b : β) :
    Judges (∀ a ∈ l, holds a) (l.foldlM f b) (l.foldl go b) := by
  induction l generalizing b with
  | nil => exact (pure b).congr (by simp)
  | cons a l ih =>
    obtain ⟨ha, hl⟩ := List.forall_mem_cons.mp h
    exact ((ha b).bind (ih hl (go b a))).congr List.forall_mem_cons.symm

/-- Checking each judges all. -/
theorem forM {holds : α → Prop} {f : α → Except Error Unit} {l : List α}
    (h : ∀ a ∈ l, Judges (holds a) (f a) ()) : Judges (∀ a ∈ l, holds a) (l.forM f) () := by
  induction l with
  | nil => exact (pure ()).congr (by simp)
  | cons a l ih =>
    obtain ⟨ha, hl⟩ := List.forall_mem_cons.mp h
    exact (ha.bind (ih hl)).congr List.forall_mem_cons.symm

end Judges

/-! ## The checks of an audit -/

section Checks

variable {resolve : Resolver} {document : Document} {name : QName} {e : Entry}
  {bs : List Block} {t : SymbolTable}

/-- The document answers an entry with the type and local name of the key. -/
def Answers (resolve : Resolver) (document : Document) (name : QName) (e : Entry) : Prop :=
  resolve document e.node e.address = some ⟨name.kind.nodeType, name.localName⟩

/-- The families are those of nodes in the index. -/
theorem isIndexed_nodeType (kind : NameKind) : kind.nodeType.isIndexed := by
  cases kind <;> rfl

/-- The check of an entry judges how the document answers it. -/
theorem judges_checkEntry (resolve : Resolver) (document : Document) (name : QName) (e : Entry) :
    Judges (Answers resolve document name e) (checkEntry resolve document name e) () := by
  unfold checkEntry Answers
  cases resolve document e.node e.address with
  | none => exact ⟨fun h => absurd h (by simp), fun _ => ⟨_, rfl, rfl⟩⟩
  | some found =>
    obtain ⟨type, localName⟩ := found
    simp only [Option.some.injEq, StoredNode.mk.injEq]
    split
    · next hindexed =>
      -- The types of the families are all indexed, so this one is none of them.
      refine ⟨?_, fun _ => ⟨_, rfl, rfl⟩⟩
      rintro ⟨rfl, _⟩
      simp [isIndexed_nodeType] at hindexed
    · split
      · next hfound => exact (Judges.pure ()).congr (iff_of_true trivial hfound)
      · next hfound => exact ⟨fun h => absurd h hfound, fun _ => ⟨_, rfl, rfl⟩⟩

/-- The addresses of the entries of a document, if it has a block. -/
def addressesIn (doc : DocId) (bs : List Block) : Option (List Address) :=
  if bs.any (·.doc == doc) then some ((entriesIn doc bs).map (·.address)) else none

/-- The addresses with those of one more block. -/
def collect (doc : DocId) (found? : Option (List Address)) (b : Block) : Option (List Address) :=
  if b.doc = doc then some (found?.getD [] ++ b.content.map (·.address)) else found?

/-- The addresses of all blocks of a document, in one list. -/
theorem foldl_collect (doc : DocId) (bs : List Block) (found? : Option (List Address)) :
    bs.foldl (collect doc) found? =
      if bs.any (·.doc == doc) then
        some (found?.getD [] ++ (entriesIn doc bs).map (·.address))
      else found? := by
  induction bs generalizing found? with
  | nil => rfl
  | cons b bs ih =>
    rw [List.foldl_cons, ih, collect]
    -- A block of another document adds no addresses.
    by_cases hb : b.doc = doc
    · simp only [List.any_cons, hb, beq_self_eq_true, Bool.true_or, if_true, entriesIn,
        List.filter_cons_of_pos, List.flatMap_cons, List.map_append, Option.getD_some,
        List.append_assoc]
      split
      · rfl
      · next hnone =>
        have hfilter : bs.filter (·.doc == doc) = [] :=
          List.filter_eq_nil_iff.mpr (by simpa using hnone)
        rw [hfilter, List.flatMap_nil, List.map_nil, List.append_nil]
    · simp [hb, entriesIn]

/-- The entries of the document under one key are judged. -/
theorem judges_checkValue (hbs : Block.Intact bs) :
    Judges (∀ e ∈ entriesIn document.id bs, Answers resolve document name e)
      (checkValue resolve document name (Block.valueOf bs)) (addressesIn document.id bs) := by
  have hblock : ∀ b ∈ bs, ∀ found?, Judges
      (b.doc = document.id → ∀ e ∈ b.content, Answers resolve document name e)
      (if b.doc ≠ document.id then .ok found?
        else do
          let entries ← b.entries
          entries.forM (checkEntry resolve document name)
          .ok (some (found?.getD [] ++ entries.map (·.address))))
      (collect document.id found? b) := by
    intro b hb found?
    -- Blocks of other documents are passed over without a check.
    by_cases hdoc : b.doc = document.id
    · rw [if_neg (not_not.mpr hdoc), (hbs.sound b hb).entries_eq, collect, if_pos hdoc]
      have hentries := Judges.forM (l := b.content)
        fun e _ => judges_checkEntry resolve document name e
      have hanswer := Judges.pure (some (found?.getD [] ++ b.content.map (·.address)))
      refine (hentries.bind (f := fun _ => _) hanswer).congr ?_
      rw [and_true]
      exact ⟨fun h _ => h, fun h => h hdoc⟩
    · rw [if_pos hdoc, collect, if_neg hdoc]
      exact (Judges.pure found?).congr (by simp [hdoc])
  -- The verdict on a value is that on its blocks, one after another.
  have hvalue := Judges.foldlM hblock none
  rw [foldl_collect] at hvalue
  unfold checkValue
  rw [hbs.scan_eq, Framing.fold_of_no_fault rfl]
  refine hvalue.congr ⟨fun h e he => ?_, fun h b hb hdoc e he => ?_⟩
  · obtain ⟨b, hb, hdoc, hcontent⟩ := Block.mem_entriesIn.mp he
    exact h b hb hdoc e hcontent
  · exact h e (Block.mem_entriesIn.mpr ⟨b, hb, hdoc, he⟩)

/-- The line for an entry of the collection, if the document has a block in it. -/
def line? (t : SymbolTable) (doc : DocId) (e : Key × Bytes) : Option String :=
  match e.1.name t with
  | .ok name => (addressesIn doc (Block.scan e.2).blocks).map (line name)
  | .error _ => none

/-- The entries of the document under a key are judged, and a line is reported if there are any
blocks. -/
theorem judges_checkKey {k : Key} {report : List String} (hname : k.name t = .ok name)
    (hbs : Block.Intact bs) :
    Judges (∀ e ∈ entriesIn document.id bs, Answers resolve document name e)
      (checkKey resolve document t report (k, Block.valueOf bs))
      (report ++ (line? t document.id (k, Block.valueOf bs)).toList) := by
  rw [checkKey, hname]
  refine ((judges_checkValue hbs).bind (Q := True) ?_).congr (and_iff_left trivial)
  rw [line?, hname, hbs.scan_eq]
  -- Without a block of the document there is no line.
  cases addressesIn document.id bs with
  | none =>
    refine ⟨fun _ => ?_, fun h => absurd trivial h⟩
    simp only [Option.map_none, Option.toList_none, List.append_nil]
    rfl
  | some addresses => exact Judges.pure _

end Checks

end Audit

/-! ## Audits of an index -/

namespace Index

open Audit

/-- The document answers every entry stored for it in its collection: with the type of the family
and the local name that it is stored under. -/
def Answered (i : Index) (document : Document) (resolve : Resolver) : Prop :=
  ∀ kind q, ∀ e ∈ entriesIn document.id
      (i.store.blocksUnder i.symbols kind document.collection q),
    resolve document e.node e.address = some ⟨kind.nodeType, q.localName⟩

/-- The keys of the document's collection with a block of the document, each with its name, and a
line for each of them: the local name and the addresses of the entries in stored order. -/
structure LinesOf (i : Index) (document : Document) (found : List (Key × QName))
    (report : List String) : Prop where
  ascending : found.Pairwise fun a b => compare a.1 b.1 = .lt
  mem_iff : ∀ k, k ∈ found.map (·.1) ↔ k.collection = document.collection ∧
    ∃ b ∈ blocksOf (i.store.value? k.toBytes), b.doc = document.id
  names : ∀ f ∈ found, f.1.name i.symbols = .ok f.2
  lines : report = found.map fun f => "Checking " ++ f.2.localName ++ ": " ++
    String.join ((entriesIn document.id (blocksOf (i.store.value? f.1.toBytes))).map
      fun e => e.address.toText ++ " ")

/-- A report with one line for each key that has a block of the document. -/
def IsReport (i : Index) (document : Document) (report : List String) : Prop :=
  ∃ found, i.LinesOf document found report

section Audits

variable {i : Index} {document : Document} {resolve : Resolver} {es : List (Key × Bytes)}

/-- An audit that has the lock checks the entries of the collection, one after the other. -/
theorem audit_eq (hfree : i.store.isFree .read)
    (hentries : entriesOf document.collection i.store = .ok es i.store) :
    audit document resolve i =
      Action.ofExcept (es.foldlM (checkKey resolve document i.symbols) []) i := by
  refine (Action.bind_of_ok (show (get : Action Index Index) i = .ok i i from rfl)).trans ?_
  rw [onStore, Action.on, Store.locked_of_isFree hfree, Action.bind_of_ok hentries]
  cases es.foldlM (checkKey resolve document i.symbols) [] <;> rfl

/-- A key of the report and its name. -/
def found? (t : SymbolTable) (doc : DocId) (e : Key × Bytes) : Option (Key × QName) :=
  if (Block.scan e.2).blocks.any (·.doc == doc) then
    (e.1.name t).toOption.map fun name => (e.1, name)
  else none

/-- A key is in the report if the document has a block under it. -/
theorem found?_eq_some_iff {t : SymbolTable} {doc : DocId} {e : Key × Bytes} {f : Key × QName} :
    found? t doc e = some f ↔
      (∃ b ∈ (Block.scan e.2).blocks, b.doc = doc) ∧ f.1 = e.1 ∧ e.1.name t = .ok f.2 := by
  obtain ⟨k, name⟩ := f
  rw [found?]
  -- A key without a name is in no report.
  cases hname : e.1.name t with
  | error err => simp [Except.toOption]
  | ok name' =>
    simp only [List.any_eq_true, beq_iff_eq, Except.toOption, Option.map_some,
      Option.ite_none_right_eq_some, Option.some.injEq, Prod.mk.injEq, Except.ok.injEq,
      eq_comm (a := e.1)]

/-- The lines for the entries of a collection are a report. -/
theorem linesOf_filterMap (hs : i.store.IntactFor i.symbols)
    (hes : i.store.Lists document.collection es)
    (hasc : es.Pairwise fun a b => compare a.1 b.1 = .lt) :
    i.LinesOf document (es.filterMap (found? i.symbols document.id))
      (es.filterMap (line? i.symbols document.id)) where
  ascending := by
    refine List.pairwise_filterMap.mpr (hasc.imp fun {e e'} hlt f hf f' hf' => ?_)
    rw [(found?_eq_some_iff.mp hf).2.1, (found?_eq_some_iff.mp hf').2.1]
    exact hlt
  mem_iff := by
    intro k
    simp only [List.mem_map, List.mem_filterMap, found?_eq_some_iff]
    constructor
    · rintro ⟨f, ⟨e, he, hblock, hkey, _⟩, rfl⟩
      rw [hkey, ← hes.blocksOf_eq he]
      exact ⟨((hes.mem_iff e.1 e.2).mp he).1, hblock⟩
    · rintro ⟨hc, b, hb, hdoc⟩
      -- A key with a block has a value, which is listed.
      cases hv : i.store.value? k.toBytes with
      | none =>
        rw [hv] at hb
        cases hb
      | some value =>
        rw [hv] at hb
        have he : (k, value) ∈ es := (hes.mem_iff k value).mpr ⟨hc, hv⟩
        obtain ⟨q, hname, _⟩ := hes.name_of_mem hs.keys he
        exact ⟨(k, q), ⟨(k, value), he, ⟨b, hb, hdoc⟩, rfl, hname⟩, rfl⟩
  names := by
    intro f hf
    obtain ⟨e, _, hfound⟩ := List.mem_filterMap.mp hf
    obtain ⟨_, hkey, hname⟩ := found?_eq_some_iff.mp hfound
    rw [hkey, hname]
  lines := by
    rw [List.map_filterMap]
    -- Entry by entry, the line is there exactly if the name was found.
    refine List.filterMap_congr fun e he => ?_
    rw [line?, found?, addressesIn, hes.blocksOf_eq he]
    cases e.1.name i.symbols with
    | error err => simp [Except.toOption]
    | ok name =>
      simp only [Except.toOption, Option.map_some]
      split
      · rw [Option.map_some, line, List.map_map]
        rfl
      · rfl

/-- What is judged over the keys is judged over the names. -/
theorem answered_iff (hs : i.store.IntactFor i.symbols)
    (hes : i.store.Lists document.collection es) :
    (∀ e ∈ es, ∀ q, e.1.name i.symbols = .ok q →
      ∀ entry ∈ entriesIn document.id (Block.scan e.2).blocks,
        Answers resolve document q entry) ↔ i.Answered document resolve := by
  constructor
  · intro h kind q entry hentry
    -- An entry under a name stands under the key of the name, and that goes back to it.
    obtain ⟨b, hb, _⟩ := Block.mem_entriesIn.mp hentry
    obtain ⟨k, value, hk, hv⟩ : ∃ k value,
        Key.lookup? i.symbols kind document.collection q = some k ∧
          i.store.value? k.toBytes = some value := by
      cases hunder : i.store.valueUnder i.symbols kind document.collection q with
      | none =>
        rw [Store.blocksUnder, hunder] at hb
        cases hb
      | some value =>
        obtain ⟨k, hk, hv⟩ := Option.bind_eq_some_iff.mp hunder
        exact ⟨k, value, hk, hv⟩
    have he : (k, value) ∈ es := (hes.mem_iff k value).mpr ⟨(Key.kind_of_lookup? hk).2, hv⟩
    rw [Store.blocksUnder, Store.valueUnder_of_lookup? hk, ← hes.blocksOf_eq he] at hentry
    exact h (k, value) he _ (Key.name_of_lookup? hk) entry hentry
  · intro h e he q hname entry hentry
    obtain ⟨q', hname', _, hblocks⟩ := hes.exists_blocksUnder hs.keys he
    -- Conversely, a listed key is the key of one name only.
    obtain rfl := Except.ok.inj (hname.symm.trans hname')
    rw [hblocks] at hentry
    exact h q.kind q entry hentry

/-- The walk through all keys judges everything stored for the document. -/
theorem judges_audit (resolve : Resolver) (hs : i.store.IntactFor i.symbols)
    (hes : i.store.Lists document.collection es) :
    Judges (i.Answered document resolve) (es.foldlM (checkKey resolve document i.symbols) [])
      (es.filterMap (line? i.symbols document.id)) := by
  have hstep : ∀ e ∈ es, ∀ report, Judges
      (∀ q, e.1.name i.symbols = .ok q →
        ∀ entry ∈ entriesIn document.id (Block.scan e.2).blocks,
          Answers resolve document q entry)
      (checkKey resolve document i.symbols report e)
      (report ++ (line? i.symbols document.id e).toList) := by
    rintro ⟨k, value⟩ he report
    obtain ⟨q, hname, _⟩ := hes.name_of_mem hs.keys he
    obtain ⟨bs, hbs, rfl⟩ := hs.values k.toBytes value (hes.value?_of_mem he)
    refine (judges_checkKey hname hbs).congr ?_
    rw [hbs.scan_eq, hname]
    simp
  -- The verdicts on the single values join to one on all of them, and the lines to one report.
  have hall := (Judges.foldlM hstep []).congr (answered_iff hs hes)
  rwa [List.foldl_append_eq_append, List.nil_append, ← List.flatMap_def,
    ← List.filterMap_eq_flatMap_toList] at hall

/-- The document answers the nodes that a call registers for it with the type of their family and
the local name they are registered under. -/
def Op.AnsweredBy (document : Document) (resolve : Resolver) : Op → Prop
  | .flush b => b.document.id = document.id → b.document.collection = document.collection →
    ∀ q nodes, b.nodes? q = some nodes → ∀ r ∈ nodes,
      resolve document r.node r.address = some ⟨q.kind.nodeType, q.localName⟩
  | .removeNodes _ _ _ | .removeBatch _ | .dropDocument _ _ | .dropCollection _ => True

/-- A document that answers the nodes as they were registered answers all stored entries. -/
theorem answered_of_registered {calls : List (Op × Except Error Unit)} {edits : List Edit}
    (h : History calls edits (i.store.blocksUnder i.symbols))
    (hcalls : ∀ call ∈ calls, call.1.AnsweredBy document resolve) :
    i.Answered document resolve := by
  intro kind q e he
  -- Every stored entry goes back to a node that some flush has written.
  obtain ⟨b, outcome, name, nodes, hcall, hnodes, hdoc, ⟨rfl, hc, hheading, _⟩, r, hr, rfl⟩ :=
    h.exists_flush he
  rw [← hheading]
  exact hcalls _ hcall hdoc hc.symm name nodes hnodes r hr

/-- In every state that a run comes to, an audit that gets the lock leaves the index alone.  It
succeeds just if the document answers every entry stored for it with the type of the family and
the local name it is stored under, and otherwise finds a corruption.  When it succeeds, the report
has a line for each key with a block of the document.  It does succeed if the document answers as
its nodes were registered. -/
theorem Run.audit_verdict {admits : Op → Prop} {calls : List (Op × Except Error Unit)}
    (h : Run admits calls i) (hfree : i.store.isFree .read)
    (hcalm : i.store.planned .findEntries = 0) (document : Document) (resolve : Resolver) :
    ((∃ report, audit document resolve i = .ok report i) ↔ i.Answered document resolve) ∧
    (¬ i.Answered document resolve →
      ∃ e, audit document resolve i = .error e i ∧ e.kind = .corrupted) ∧
    (∀ report i', audit document resolve i = .ok report i' →
      i' = i ∧ i.IsReport document report) ∧
    ((∀ call ∈ calls, call.1.AnsweredBy document resolve) →
      ∃ report, audit document resolve i = .ok report i) := by
  have hs := h.intact
  obtain ⟨edits, hhistory⟩ := h.exists_history
  obtain ⟨es, hentries, hes, hasc⟩ := entriesOf_ascending hs.keys hcalm document.collection
  have hjudges := judges_audit resolve hs hes
  rw [audit_eq hfree hentries]
  have hiff : (∃ report, Action.ofExcept (es.foldlM (checkKey resolve document i.symbols) []) i =
      .ok report i) ↔ i.Answered document resolve := by
    rw [← hjudges.ok_iff]
    simp only [Action.ofExcept_eq_ok_iff, and_true]
  refine ⟨hiff, fun hn => ?_, fun report i' hreport => ?_, fun hcalls => ?_⟩
  · obtain ⟨e, he, hkind⟩ := hjudges.corrupted hn
    exact ⟨e, Action.ofExcept_eq_error_iff.mpr ⟨he, rfl⟩, hkind⟩
  · obtain ⟨hreport, rfl⟩ := Action.ofExcept_eq_ok_iff.mp hreport
    have hok := hjudges.ok (hjudges.ok_iff.mp ⟨report, hreport⟩)
    obtain rfl := Except.ok.inj (hok.symm.trans hreport)
    exact ⟨rfl, _, linesOf_filterMap hs hes hasc⟩
  -- Whatever is stored was registered, and is answered like that.
  · exact hiff.mpr (answered_of_registered hhistory hcalls)

/-- A document loaded in two parts passes if it answers its attributes, and fails if it answers
nothing. -/
theorem audit_verdict_loadedTwice :
    (∃ report, audit oneNode.document (fun _ _ _ => some ⟨.attr, "id"⟩) loadedTwice =
        .ok report loadedTwice ∧ loadedTwice.IsReport oneNode.document report) ∧
      ∃ e, audit oneNode.document (fun _ _ _ => none) loadedTwice = .error e loadedTwice ∧
        e.kind = .corrupted := by
  -- The first resolver answers what was registered, and the second one nothing.
  constructor
  · have hcalls : ∀ call ∈ [(Op.flush oneNode, (Except.ok () : Except Error Unit)),
        (.flush anotherNode, .ok ())],
        call.1.AnsweredBy oneNode.document fun _ _ _ => some ⟨.attr, "id"⟩ := by
      simp only [List.forall_mem_cons, List.not_mem_nil, false_implies, implies_true, and_true,
        Op.AnsweredBy]
      constructor <;> intro _ _ q nodes hnodes r _
      · rw [oneNode, Batch.nodes?_restore] at hnodes
        split at hnodes
        · next hq => rw [hq]; rfl
        · cases hnodes
      · rw [anotherNode, Batch.nodes?_restore] at hnodes
        split at hnodes
        · next hq => rw [hq]; rfl
        · cases hnodes
    obtain ⟨_, _, hreport, hok⟩ := run_loadedTwice.audit_verdict rfl rfl oneNode.document
      fun _ _ _ => some ⟨.attr, "id"⟩
    obtain ⟨report, haudit⟩ := hok hcalls
    exact ⟨report, haudit, (hreport report _ haudit).2⟩
  · obtain ⟨_, hcorrupted, _⟩ := run_loadedTwice.audit_verdict rfl rfl oneNode.document
      fun _ _ _ => none
    refine hcorrupted fun hanswered => ?_
    -- The node of the first load is stored, and no answer is given for it.
    have hentry : (⟨⟨[1]⟩, .unknown⟩ : Entry) ∈ entriesIn oneNode.document.id
        (loadedTwice.store.blocksUnder loadedTwice.symbols .attrId 7
          { localName := "id", kind := .attrId }) := by
      rw [blocksUnder_loadedTwice]
      refine Block.mem_entriesIn.mpr ⟨blockOfNode .ordered 1, .head _, rfl, ?_⟩
      rw [blockOfNode, Block.content_ofEntries 1 .ordered (fitBlock_one (.inl rfl))]
      exact .head _
    cases hanswered .attrId { localName := "id", kind := .attrId } _ hentry

end Audits

end Index

end XmlIndex
