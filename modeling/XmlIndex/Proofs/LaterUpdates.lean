import XmlIndex.Proofs.OpenCalls
import XmlIndex.Proofs.RequestCalls

/-! # Queries and the updates after them

As a query only gives codes, an index that was queried and one that was not stay alike through
the same requests, which therefore come to the same (`Index.Reached.queries_leave_updates`).
There are two exceptions (`Index.isOk_calls_afterQuery`).  The codes may run out earlier, and then
a request is refused that would not have been; and a drop that is stopped has gone through other
keys, as the order of the keys is that of the codes. -/

namespace XmlIndex

open XmlIndex.Action

namespace Index

/-! ## Requests on alike indexes -/

section Alike

variable {T : Interner → Interner → Prop} {tolerated : Error → Prop} {i i' j : Index}

/-- A value is visited as itself. -/
theorem sameVisit_refl (visit : Findings → Block → Except Error Findings)
    (value? : Option Bytes) : SameVisit visit value? value? := by
  cases value? with
  | none => trivial
  | some value => exact fun _ => rfl

/-- A query is answered alike. -/
theorem Query.agree_run (hT : SymbolTable.Agreeing tolerated T) (h : Alike T Eq i i')
    (q : Query) : Agree tolerated (Alike T Eq) Eq (q.run i) (q.run i') := by
  cases q with
  | lookup kind docs name select? =>
    exact h.agree_lookup hT fun _ _ heq => heq ▸ sameVisit_refl _ _
  | join kind axis docs name context contextId? =>
    exact h.agree_join hT fun _ _ heq => heq ▸ sameVisit_refl _ _

/-- The indexes are alike, and the same is left of the batch. -/
def LeftAlike (T : Interner → Interner → Prop) (x x' : Index × Option Batch) : Prop :=
  Alike T Eq x.1 x'.1 ∧ x'.2 = x.2

/-- Calls that come to the same are answered alike, if their indexes are alike and the same is left
of the batch. -/
theorem agree_answering {σ α : Type} {R : σ → σ → Prop} {index : σ → Index}
    {left? : σ → Option Batch} {answer : α → Answer} {r r' : EStateM.Result Error σ α}
    (h : Agree tolerated R Eq r r')
    (hR : ∀ s s', R s s' → LeftAlike T (index s, left? s) (index s', left? s')) :
    Agree tolerated (LeftAlike T) Eq (answering index left? answer r)
      (answering index left? answer r') := by
  cases h with
  | ok answers states => exact .ok (congrArg answer answers) (hR _ _ states)
  | error kinds states => exact .error kinds (hR _ _ states)
  | tolerated cause => exact .tolerated cause

/-- A request comes to the same on alike indexes. -/
theorem Request.agree_run (hT : SymbolTable.Agreeing tolerated T) (h : Alike T Eq i i')
    {request : Request} (hreadable : (request.call i).Readable)
    (hunstopped : (request.call i).Unstopped) (hunstopped' : (request.call i').Unstopped) :
    Agree tolerated (LeftAlike T) Eq (request.run i) (request.run i') := by
  have hindex : ∀ j j', Alike T Eq j j' → LeftAlike T (j, none) (j', none) :=
    fun _ _ hj => ⟨hj, rfl⟩
  -- A query is answered with no batch; of the updates only a flush and a batch of removals leave
  -- one.
  cases request with
  | query q => exact agree_answering (q.agree_run hT h) hindex
  | update op =>
    cases op with
    | flush batch =>
      exact agree_answering (Alike.agree_flush hT ⟨h, rfl, rfl⟩) fun _ _ hf =>
        ⟨hf.index, congrArg some hf.batch⟩
    | removeNodes document name removed =>
      exact agree_answering (h.agree_removeNodes hT document name removed) hindex
    | removeBatch batch =>
      exact agree_answering (h.agree_removeBatch hT batch) fun _ _ hx =>
        ⟨hx.1, congrArg some hx.2⟩
    | dropDocument document stop =>
      exact agree_answering (h.agree_dropDocument (hreadable document stop rfl)
        (fun n hn => hunstopped document.uri n (outcomeOf_answering hn))
        (fun n hn => hunstopped' document.uri n (outcomeOf_answering hn))) hindex
    | dropCollection collection => exact agree_answering (h.agree_dropCollection collection) hindex

/-- If the second index has codes for all texts that the first has codes for, then the same
requests come to the same, as long as the second index has codes. -/
theorem map_report_calls {requests : List Request}
    (h : Alike (fun t t' => t'.Covers t) Eq i i')
    (hreadable : ∀ c ∈ calls requests i, c.Readable)
    (hunstopped : ∀ c ∈ calls requests i, c.Unstopped)
    (hunstopped' : ∀ c ∈ calls requests i', c.Unstopped)
    (hcoded' : ∀ c ∈ calls requests i', c.Coded) :
    (calls requests i').map Call.report = (calls requests i).map Call.report := by
  -- Induction on the requests, over any two indexes that are alike.
  induction requests generalizing i i' with
  | nil => rfl
  | cons request requests ih =>
    obtain ⟨hreadable, hreadables⟩ := List.forall_mem_cons.mp hreadable
    obtain ⟨hunstopped, hunstoppeds⟩ := List.forall_mem_cons.mp hunstopped
    obtain ⟨hunstopped', hunstoppeds'⟩ := List.forall_mem_cons.mp hunstopped'
    obtain ⟨hcoded', hcodeds'⟩ := List.forall_mem_cons.mp hcoded'
    have hcodes : SymbolTable.Agreeing Interner.Exhausted fun t t' => t'.Covers t :=
      fun s _ _ => Interner.agree_intern_of_covers s
    -- A tolerated cause would be the lack of a code.
    obtain ⟨houtcome, hindex, hleft⟩ :=
      (Request.agree_run hcodes h hreadable hunstopped hunstopped').outcomeOf_eq
        fun e he hcause => hcoded' (he.trans (congrArg Except.error hcause))
    have hreport : (request.call i').report = (request.call i).report := Prod.ext houtcome hleft
    rw [calls, calls, List.map_cons, List.map_cons, hreport,
      ih hindex hreadables hunstoppeds hunstoppeds' hcodeds']

end Alike

/-! ## Queries before the requests -/

section Earlier

variable {i i' j : Index}

/-- Names may get codes in the second index. -/
theorem Alike.of_onlyCodes (h : Alike (fun t t' => t'.Covers t) Eq i i')
    (hj : Query.OnlyCodes j i') : Alike (fun t t' => t'.Covers t) Eq i j := by
  obtain ⟨hstore, hsymbols⟩ := hj
  have haccess : j.store.SameAccess i'.store := .of_sameUpToPlan hstore
  exact {
    symbols := ⟨hsymbols.1.covers.trans h.symbols.names,
      hsymbols.2.covers.trans h.symbols.namespaces⟩
    named := h.named
    named' := h.named'.of_sameContents hstore.sameContents hsymbols
    -- The codes given out by the queries are under no key yet.
    values := fun kind collection q => by
      rw [h.values, Store.valueUnder_congr hstore.value?,
        Store.valueUnder_of_extends h.named' hsymbols]
    free := fun mode => (haccess.isFree mode).trans (h.free mode)
    readOnly := haccess.readOnly.trans h.readOnly
    calm := h.calm
    calm' := haccess.calm h.calm' }

/-- A reached index is alike to what it is after some queries. -/
theorem Reached.alike_afterQueries (h : Reached i) (hcalm : i.store.Calm)
    (queries : List Query) :
    Alike (fun t t' => t'.Covers t) Eq i (afterQueries queries i) := by
  have hself : Alike (fun t t' => t'.Covers t) Eq i i :=
    ⟨⟨fun _ h => h, fun _ h => h⟩, h.keysNamed, h.keysNamed, fun _ _ _ => rfl, fun _ => rfl, rfl,
      hcalm, hcalm⟩
  have hqueries : ∀ {i' : Index}, Alike (fun t t' => t'.Covers t) Eq i i' →
      Alike (fun t t' => t'.Covers t) Eq i (afterQueries queries i') := by
    -- The relation is kept by each query, so it holds after all of them.
    induction queries with
    | nil => exact fun h => h
    | cons q queries ih => exact fun h => ih (h.of_onlyCodes (q.keeps_run _))
  exact hqueries hself

/-- Queries have no influence on the requests after them: each has the same answer or a failure
of the same class, and leaves the same of its batch.  The codes have to suffice for what is asked
for as well, no drop may be stopped, and what a document is dropped from has to be readable. -/
theorem Reached.queries_leave_updates (h : Reached i) (hcalm : i.store.Calm)
    (queries : List Query) (later : List Request)
    (hreadable : ∀ c ∈ calls later i, c.Readable)
    (hunstopped : ∀ c ∈ calls later i, c.Unstopped)
    (hunstopped' : ∀ c ∈ calls later (afterQueries queries i), c.Unstopped)
    (hcoded : ∀ c ∈ calls later (afterQueries queries i), c.Coded) :
    (calls later (afterQueries queries i)).map Call.report = (calls later i).map Call.report :=
  map_report_calls (h.alike_afterQueries hcalm queries) hreadable hunstopped hunstopped' hcoded

end Earlier

/-- What a run within the limits of the format has stored can be read. -/
theorem Run.readableIn {admits : Op → Prop} {history : List (Op × Except Error Unit)} {i : Index}
    (h : Run admits history i) (collection : CollectionId) :
    i.store.ReadableIn collection NameKind.all := fun _ _ _ hv => (h.intact.readable hv).no_fault

/-- Where every collection can be read, whatever document a drop is asked for can. -/
theorem Request.readable_call {request : Request} {i : Index}
    (h : ∀ collection, i.store.ReadableIn collection NameKind.all) : (request.call i).Readable :=
  fun document _ _ => h document.collection

/-- A call that succeeds is neither refused for want of a code nor stopped. -/
theorem Call.of_isOk {c : Call} (h : c.outcome.isOk) : c.Coded ∧ c.Unstopped := by
  unfold Coded Unstopped
  cases ho : c.outcome with
  | ok answer => exact ⟨nofun, fun _ _ => nofun⟩
  | error e =>
    rw [ho] at h
    cases h

/-! ## A load and a drop after a query -/

section LoadAndDrop

variable {name : String} {t t' : SymbolTable} {k : Key}

/-- A document of collection 7. -/
def oneDocument : Document := ⟨1, 7, "/db/a.xml"⟩

/-- An element name. -/
def elementOf (localName : String) : QName := { localName }

/-- A query for the elements of that name. -/
def askFor (localName : String) : Query :=
  .lookup .element (.ofList [oneDocument]) (elementOf localName) none

/-- The fresh index with these codes. -/
def freshWith (t : SymbolTable) : Index := { fresh with symbols := t }

/-- Asking for a name forms its key. -/
theorem afterQueries_askFor (h : Key.ofName .element 7 (elementOf name) t = .ok k t') :
    afterQueries [askFor name] (freshWith t) = freshWith t' := by
  have hkey : keyOf .element 7 (elementOf name) (freshWith t) = .ok k (freshWith t') :=
    keyOf_of_ok h
  -- There is no value yet, so only the key is formed.
  have hvisit : visitValues .element (elementOf name)
      (Findings.addBlock .element none (.ofList [oneDocument])) [7] {} (freshWith t) =
      .ok { complete := false } (freshWith t') := by
    rw [visitValues, bind_of_ok hkey]
    rfl
  show stateOf ((visitValues .element (elementOf name)
    (Findings.addBlock .element none (.ofList [oneDocument])) [7] {} >>= _) (freshWith t)) = _
  rw [bind_of_ok hvisit]
  rfl

/-- A query for a name of the third family, which has no codes. -/
def askForId : Request :=
  .query (.lookup .attrId (.ofList [oneDocument]) { localName := "id", kind := .attrId } none)

/-- A query, a load and a drop that nobody stops. -/
def loadAndDrop : List Request :=
  [askForId, .update (.flush oneNode), .update (.dropDocument oneDocument fun _ => false)]

/-- The index after the load. -/
def loadedWith (t : SymbolTable) : Index := stateOf ((Op.flush oneNode).run (freshWith t))

/-- The load can be made with any codes. -/
theorem run_loadedWith (t : SymbolTable) :
    Run (fun _ => True) [(.flush oneNode, .ok ())] (loadedWith t) :=
  .call (i := freshWith t) (.start rfl) trivial fits_oneNode

/-- A drop that nobody stops succeeds. -/
theorem isOk_dropDocument {i : Index} (ho : i.store.Open) (hs : i.store.IntactValues) :
    ((Request.update (.dropDocument oneDocument fun _ => false)).call i).outcome.isOk := by
  rw [Request.call, Request.run]
  cases h : Index.dropDocument oneDocument (fun _ => false) i with
  | ok count i => rfl
  | error e i =>
    obtain ⟨n, _, hstop, _⟩ := declined_of_dropDocument ho hs h
    cases hstop

/-- With any codes the requests succeed, and what the drop finds can be read. -/
theorem calls_loadAndDrop (t : SymbolTable) :
    ∀ c ∈ calls loadAndDrop (freshWith t), c.outcome.isOk ∧ c.Readable := by
  have hquery : (stateOf (askForId.run (freshWith t))).1 = freshWith t := rfl
  have hflush : (outcomeOf ((Request.update (.flush oneNode)).run (freshWith t))).isOk := rfl
  have hopen : (loadedWith t).store.Open := ⟨rfl, rfl, fun _ => rfl⟩
  rw [loadAndDrop, calls, calls, calls, calls, hquery, stateOf_run_update, ← loadedWith]
  refine List.forall_mem_cons.mpr ⟨⟨rfl, nofun⟩, List.forall_mem_cons.mpr ⟨⟨hflush, nofun⟩, ?_⟩⟩
  exact List.forall_mem_singleton.mpr
    ⟨isOk_dropDocument hopen (run_loadedWith t).intact.values,
      Request.readable_call (run_loadedWith t).readableIn⟩

/-- Asking for a name before has no influence on a load and the drop of what was loaded. -/
theorem queries_leave_updates_loadAndDrop :
    (calls loadAndDrop (afterQueries [askFor "a"] fresh)).map Call.report =
      (calls loadAndDrop fresh).map Call.report := by
  have hroom : SymbolTable.empty.HasRoomFor [elementOf "a"] := by
    constructor <;> exact Interner.hasRoomFor_empty (by decide)
  obtain ⟨k, t, hkey, _⟩ := Key.exists_ofName 7 hroom
  have hquery : afterQueries [askFor "a"] fresh = freshWith t := afterQueries_askFor hkey
  -- The two calls go through whether or not the name has its code already.
  have hbefore := calls_loadAndDrop .empty
  have hafter := calls_loadAndDrop t
  rw [← hquery] at hafter
  exact Reached.queries_leave_updates (.start rfl) (fun _ => rfl) [askFor "a"] loadAndDrop
    (fun c hc => (hbefore c hc).2) (fun c hc => (Call.of_isOk (hbefore c hc).1).2)
    (fun c hc => (Call.of_isOk (hafter c hc).1).2) fun c hc => (Call.of_isOk (hafter c hc).1).1

end LoadAndDrop

end Index

/-! ## Codes of some texts -/

namespace Interner

/-- A text of this length. -/
def textOfLength (n : Nat) : String := String.ofList (List.replicate n 'a')

/-- A table with codes for the first texts of these. -/
def filled : Nat → Interner
  | 0 => .empty
  | n + 1 => stateOf (intern (textOfLength n) (filled n))

/-- A filled table has as many codes as it is filled with, all for texts of less than that length.
-/
theorem filled_spec {n : Nat} (hn : n < UInt16.size) : (filled n).texts.size = n ∧
    ∀ s, ((filled n).code? s).isSome → ∃ m < n, s = textOfLength m := by
  induction n with
  | zero => exact ⟨rfl, fun s hs => by simp [filled, code?, empty] at hs⟩
  | succ n ih =>
    obtain ⟨hsize, hcodes⟩ := ih (by omega)
    -- All texts so far are shorter than the one to come.
    have hnew : (filled n).code? (textOfLength n) = none := by
      rw [← Option.not_isSome_iff_eq_none]
      intro hs
      obtain ⟨m, hm, htext⟩ := hcodes _ hs
      have hlength := congrArg String.length htext
      simp only [textOfLength, String.length_ofList, List.length_replicate] at hlength
      omega
    have hroom : (filled n).texts.size + 1 < UInt16.size := by omega
    rw [filled, intern_of_new hnew hroom]
    refine ⟨by simp [stateOf, push, hsize], fun s hs => ?_⟩
    rcases (isSome_code?_push hnew hroom).mp hs with rfl | hs
    · exact ⟨n, by omega, rfl⟩
    · obtain ⟨m, hm, rfl⟩ := hcodes s hs
      exact ⟨m, by omega, rfl⟩

/-- Any other text has no code. -/
theorem code?_filled_of_not_mem {n : Nat} (hn : n < UInt16.size) {s : String} {c : Char}
    (hc : c ∈ s.toList) (hne : c ≠ 'a') : (filled n).code? s = none := by
  rw [← Option.not_isSome_iff_eq_none]
  intro hs
  obtain ⟨m, -, rfl⟩ := (filled_spec hn).2 s hs
  rw [textOfLength, String.toList_ofList] at hc
  exact hne (List.eq_of_mem_replicate hc)

/-- A first and a second text have the first two codes. -/
theorem exists_intern_two {s s' : String} (hne : s ≠ s') : ∃ t t',
    intern s .empty = .ok 1 t ∧ intern s' t = .ok 2 t' ∧ intern s t' = .ok 1 t' ∧
      intern s' t' = .ok 2 t' := by
  have hempty : ∀ s, empty.code? s = none := fun s => by simp [code?, empty]
  have hroom : empty.texts.size + 1 < UInt16.size := by decide
  -- The first code does not make the second text known.
  have hnew : (empty.push s (hempty s) hroom).code? s' = none := by
    rw [code?_push, if_neg hne, hempty]
  have hroom' : (empty.push s (hempty s) hroom).texts.size + 1 < UInt16.size := by
    simp only [push, Array.size_push, empty]
    decide
  refine ⟨_, _, intern_of_new (hempty s) hroom, intern_of_new hnew hroom',
    intern_of_code? ?_, intern_of_code? ?_⟩
  · rw [code?_push, if_neg hne.symm, code?_push, if_pos rfl]
    rfl
  · rw [code?_push, if_pos rfl]
    rfl

end Interner

namespace Index

/-! ## Queries that are noticed -/

section Noticed

variable {name name' : String} {t t' : SymbolTable} {k k' : Key} {i i' : Index} {f : Flushing}
  {e : Error} {request : Request} {requests : List Request} {answer : Answer}
  {left? : Option Batch}

/-- A request that succeeds, and what comes of the others. -/
theorem map_isOk_calls_of_ok (h : request.run i = .ok answer (i', left?)) :
    (calls (request :: requests) i).map (·.outcome.isOk) =
      true :: (calls requests i').map (·.outcome.isOk) := by
  rw [calls, List.map_cons, Request.call, h]
  rfl

/-- A request that fails, and what comes of the others. -/
theorem map_isOk_calls_of_error (h : request.run i = .error e (i', left?)) :
    (calls (request :: requests) i).map (·.outcome.isOk) =
      false :: (calls requests i').map (·.outcome.isOk) := by
  rw [calls, List.map_cons, Request.call, h]
  rfl

/-- The key of an element has the code of its local name. -/
theorem ofName_elementOf (name : String) (names namespaces : Interner) :
    Key.ofName .element 7 (elementOf name) ⟨names, namespaces⟩ =
      match Interner.intern name names with
      | .ok c names' => .ok (Key.symbolic .element 7 c 0) ⟨names', namespaces⟩
      | .error e names' => .error e ⟨names', namespaces⟩ := by
  show (SymbolTable.symbol name >>= _) _ = _
  -- The namespace is empty and needs no code, so the name alone decides.
  cases h : Interner.intern name names with
  | ok c names' =>
    have hsymbol : SymbolTable.symbol name ⟨names, namespaces⟩ =
        .ok c ⟨names', namespaces⟩ := by
      simp only [SymbolTable.symbol, SymbolTable.onNames, h]
    rw [bind_of_ok hsymbol]
    rfl
  | error e names' =>
    have hsymbol : SymbolTable.symbol name ⟨names, namespaces⟩ =
        .error e ⟨names', namespaces⟩ := by
      simp only [SymbolTable.symbol, SymbolTable.onNames, h]
    rw [bind_of_error hsymbol]

/-! ### Loads of one element -/

/-- The first load of a document with one element. -/
def loadOf (localName : String) : Batch :=
  (Batch.firstLoad oneDocument).restore (elementOf localName) [{ doc := 1, node := ⟨[1]⟩ }]

/-- The load has one node for its name. -/
theorem nodes?_loadOf (name : String) :
    (loadOf name).nodes? (elementOf name) = some [{ doc := 1, node := ⟨[1]⟩ }] := by
  rw [loadOf, Batch.nodes?_restore, if_pos rfl]

/-- The flush of a load that has begun. -/
def loading (name : String) (i : Index) : Flushing :=
  { flushing i (loadOf name) with progress := Progress.start 1 i.progressStep }

/-- A load comes to the flush of its one name. -/
theorem run_load_of_ok (h : flushName (elementOf name) 1 (loading name i) = .ok () f) :
    ∃ answer left?,
      (Request.update (.flush (loadOf name))).run i = .ok answer (f.index, left?) := by
  have hnames : flushNames [elementOf name] 1 (loading name i) = .ok () f := bind_of_ok h
  -- What follows the last name only reports progress.
  have hflush : ∃ summary f', Index.flush (flushing i (loadOf name)) = .ok summary f' ∧
      f'.index = f.index := by
    show ∃ summary f', (flushNames [elementOf name] 1 >>= _) (loading name i) = _ ∧ _
    rw [bind_of_ok hnames]
    exact ⟨_, _, rfl, rfl⟩
  obtain ⟨summary, f', hflush, hindex⟩ := hflush
  refine ⟨.written summary, some f'.batch, ?_⟩
  rw [Request.run, hflush, ← hindex]
  rfl

/-- A load fails where the flush of its one name does. -/
theorem run_load_of_error (h : flushName (elementOf name) 1 (loading name i) = .error e f) :
    (Request.update (.flush (loadOf name))).run i = .error e (f.index, some f.batch) := by
  have hnames : flushNames [elementOf name] 1 (loading name i) = .error e f := bind_of_error h
  have hflush : Index.flush (flushing i (loadOf name)) = .error e f := by
    show (flushNames [elementOf name] 1 >>= _) (loading name i) = _
    exact bind_of_error hnames
  rw [Request.run, hflush]
  rfl

/-- Without a key there is no load. -/
theorem run_load_of_unformed
    (h : Key.ofName .element 7 (elementOf name) i.symbols = .error e t') :
    ∃ x, (Request.update (.flush (loadOf name))).run i = .error e x := by
  have hname : flushName (elementOf name) 1 (loading name i) =
      .error e (loading name { i with symbols := t' }) := by
    rw [flushName, get_bind]
    exact bind_of_error (onIndex_keyOf_eq_error_iff.mpr ⟨t', h, rfl⟩)
  exact ⟨_, run_load_of_error hname⟩

/-- What the load writes. -/
def loaded : Bytes := (loadOf "a").blockOf [{ doc := 1, node := ⟨[1]⟩ }]

/-- What the load writes is one block. -/
theorem scan_loaded : Block.scan loaded = ⟨[blockOfNode .ordered 1], none⟩ := by
  have hblock : loaded = Block.valueOf [blockOfNode .ordered 1] := by
    simp only [loaded, Batch.blockOf, NodeRef.sort, List.mergeSort_singleton, Block.valueOf_cons,
      Block.valueOf_nil, List.append_nil]
    rfl
  have hframed : (blockOfNode .ordered 1).WellFramed :=
    Block.wellFramed_ofEntries 1 .ordered (fitBlock_one (.inl rfl))
  rw [hblock]
  exact Block.scan_eq_iff.mpr ⟨rfl, fun b hb => List.mem_singleton.mp hb ▸ hframed⟩

/-- There is no block in no bytes. -/
theorem scan_empty : Block.scan [] = ⟨[], none⟩ :=
  Block.scan_eq_iff.mpr ⟨rfl, fun _ h => absurd h List.not_mem_nil⟩

/-- The fresh index with the load under a key. -/
def holdingLoad (k : Key) (t : SymbolTable) : Index :=
  { fresh with store := fresh.store.appended k.toBytes loaded, symbols := t }

/-- The load goes through in a fresh index, if its key can be formed. -/
theorem run_load_freshWith (h : Key.ofName .element 7 (elementOf name) t = .ok k t') :
    ∃ answer left?, (Request.update (.flush (loadOf name))).run (freshWith t) =
      .ok answer (holdingLoad k t', left?) := by
  have hnodes : ∀ i, (loading name i).batch.nodes? (elementOf name) =
      some [{ doc := 1, node := ⟨[1]⟩ }] := fun _ => nodes?_loadOf name
  -- The store is empty, so the block is written under a new key.
  have hload : ∃ f, flushName (elementOf name) 1 (loading name (freshWith t)) = .ok () f ∧
      f.index = holdingLoad k t' := by
    rw [flushName, get_bind, bind_of_ok (onIndex_keyOf_eq_ok_iff.mpr ⟨t', h, rfl⟩), get_bind]
    simp only [hnodes]
    exact ⟨_, rfl, rfl⟩
  obtain ⟨f, hf, hindex⟩ := hload
  rw [← hindex]
  exact run_load_of_ok hf

/-- A load goes through where the value has no block. -/
theorem run_load_of_empty (hkey : Key.ofName .element 7 (elementOf name) i.symbols = .ok k t')
    (ho : i.store.Open) (hvalue : i.store.value? k.toBytes = some []) :
    ∃ answer i' left?,
      (Request.update (.flush (loadOf name))).run i = .ok answer (i', left?) := by
  -- A value of no bytes has no block of the document in it.
  have haccepts : i.store.Accepts k 1 .ordered := fun _ value hv => by
    obtain rfl := Option.some.inj (hvalue.symm.trans hv)
    rw [scan_empty]
    rfl
  obtain ⟨f, hf⟩ := flushName_of_accepts (f := loading name i) 1 (nodes?_loadOf name) hkey ho
    haccepts
  obtain ⟨answer, left?, hload⟩ := run_load_of_ok hf
  exact ⟨answer, f.index, left?, hload⟩

/-- It is refused where the value has the load. -/
theorem run_load_of_loaded (hkey : Key.ofName .element 7 (elementOf name) i.symbols = .ok k t')
    (hvalue : i.store.value? k.toBytes = some loaded) :
    ∃ e x, (Request.update (.flush (loadOf name))).run i = .error e x := by
  cases hf : flushName (elementOf name) 1 (loading name i) with
  | error e f => exact ⟨e, _, run_load_of_error hf⟩
  | ok a f =>
    obtain ⟨k', hkey', _, haccepts, _⟩ := flushName_eq_ok (nodes?_loadOf name) hf
    obtain ⟨rfl, -⟩ := EStateM.Result.ok.inj (hkey.symm.trans hkey')
    -- An accepted block would mean that the value has none of the document.
    have hnone := haccepts rfl loaded hvalue
    rw [scan_loaded] at hnone
    cases hnone

/-! ### The last code -/

/-- The fresh index with one code left. -/
def nearlyFull : Index := freshWith ⟨.filled 65534, .empty⟩

/-- The last code goes to the load, or to a query before it. -/
theorem isOk_calls_nearlyFull :
    (calls [.update (.flush (loadOf "c"))] nearlyFull).map (·.outcome.isOk) = [true] ∧
    (calls [.update (.flush (loadOf "c"))] (afterQueries [askFor "b"] nearlyFull)).map
      (·.outcome.isOk) = [false] := by
  have hlt : 65534 < UInt16.size := by decide
  have hsize := (Interner.filled_spec hlt).1
  have hb : (Interner.filled 65534).code? "b" = none :=
    Interner.code?_filled_of_not_mem hlt (c := 'b') (by decide) (by decide)
  have hc : (Interner.filled 65534).code? "c" = none :=
    Interner.code?_filled_of_not_mem hlt (c := 'c') (by decide) (by decide)
  rw [nearlyFull]
  -- Only the number of codes is needed, not what they are for.
  generalize Interner.filled 65534 = names at hsize hb hc
  have hroom : names.texts.size + 1 < UInt16.size := by
    rw [hsize]
    decide
  constructor
  -- With no query before it, the load has the last code.
  · have hkey := ofName_elementOf "c" names .empty
    rw [Interner.intern_of_new hc hroom] at hkey
    obtain ⟨answer, left?, hload⟩ := run_load_freshWith hkey
    exact map_isOk_calls_of_ok hload
  -- The query takes the last code, and the load is left without.
  · have hkey := ofName_elementOf "b" names .empty
    rw [Interner.intern_of_new hb hroom] at hkey
    have hcode : (names.push "b" hb hroom).code? "c" = none := by
      rw [Interner.code?_push, if_neg (by decide), hc]
    have hfull := ofName_elementOf "c" (names.push "b" hb hroom) .empty
    rw [Interner.intern_of_full hcode (by simp [Interner.push, hsize])] at hfull
    obtain ⟨x, hload⟩ := run_load_of_unformed (i := freshWith _) hfull
    rw [afterQueries_askFor hkey]
    exact map_isOk_calls_of_error hload

/-! ### A drop that is stopped -/

/-- The key with this code. -/
def keyOfCode (c : UInt16) : Key := .symbolic .element 7 c 0

/-- A first and a second name have the first two codes. -/
theorem exists_ofName_two (hne : name ≠ name') : ∃ t t',
    Key.ofName .element 7 (elementOf name) .empty = .ok (keyOfCode 1) t ∧
    Key.ofName .element 7 (elementOf name') t = .ok (keyOfCode 2) t' ∧
    Key.ofName .element 7 (elementOf name) t' = .ok (keyOfCode 1) t' ∧
    Key.ofName .element 7 (elementOf name') t' = .ok (keyOfCode 2) t' := by
  obtain ⟨u, u', hfirst, hsecond, hfirst', hsecond'⟩ := Interner.exists_intern_two hne
  refine ⟨⟨u, .empty⟩, ⟨u', .empty⟩, (ofName_elementOf name .empty .empty).trans ?_,
    (ofName_elementOf name' u .empty).trans ?_, (ofName_elementOf name u' .empty).trans ?_,
    (ofName_elementOf name' u' .empty).trans ?_⟩
  · rw [hfirst, keyOfCode]
  · rw [hsecond, keyOfCode]
  · rw [hfirst', keyOfCode]
  · rw [hsecond', keyOfCode]

/-- The index with the load under one key and an empty value under another. -/
def holdingBoth (k k' : Key) (t : SymbolTable) : Index :=
  { holdingLoad k t with store := (holdingLoad k t).store.place k'.toBytes [] }

/-- Removing from a name without a value puts an empty one there. -/
theorem run_removeNodes_holdingLoad
    (h : Key.ofName .element 7 (elementOf name) t = .ok k' t')
    (hnone : (holdingLoad k t').store.entries.get? k'.toBytes = none) :
    (Request.update (.removeNodes oneDocument (elementOf name) [])).run (holdingLoad k t) =
      .ok .removed (holdingBoth k k' t', none) := by
  have hkey : keyOf .element 7 (elementOf name) (holdingLoad k t) =
      .ok k' (holdingLoad k t') := keyOf_of_ok h
  -- Without a value there is no block to change, and what is written is empty.
  have hstore : rewriteValue 1 [] k'.toBytes (holdingLoad k t').store =
      .ok () (holdingBoth k k' t').store := by
    show (Store.get _ >>= _) _ = _
    rw [bind_of_ok (Store.get_of_planned rfl _), hnone]
    rfl
  have hremove : Index.removeNodes oneDocument (elementOf name) [] (holdingLoad k t) =
      .ok () (holdingBoth k k' t') := by
    show (keyOf .element 7 (elementOf name) >>= fun key =>
      onStore (Store.locked .write (rewriteValue 1 [] key.toBytes))) _ = _
    rw [bind_of_ok hkey]
    exact on_eq_ok_iff.mpr ⟨_, hstore, rfl⟩
  rw [Request.run, hremove]
  rfl

/-- A drop that is stopped once it is done with the first key. -/
def dropOne : Request := .update (.dropDocument oneDocument (· == 1))

variable {key key' : Bytes} {keys : List Bytes}

/-- The drop is done with the first key, is asked whether to go on, and stops before the second. -/
theorem run_dropOne {d : Dropped} {s : Store} (hfree : i.store.isFree .write)
    (hkeys : Store.findKeys (rangeOf .element 7) i.store = .ok (key :: key' :: keys) i.store)
    (hdrop : dropFromKey oneDocument key { asked := 1 } i.store = .ok d s) (hasked : d.asked = 1) :
    dropOne.run i =
      .error (.removalStopped oneDocument.uri d.written) ({ i with store := s }, none) := by
  -- The second question is answered with a stop.
  have hrest : dropFromKeys oneDocument (· == 1) (key' :: keys) d s =
      .error (.removalStopped oneDocument.uri d.written) s := by
    rw [dropFromKeys, hasked]
    rfl
  -- So the walk ends in the first family, behind its first key.
  have hwalk : dropFromKinds oneDocument (· == 1) NameKind.all {} i.store =
      .error (.removalStopped oneDocument.uri d.written) s := by
    show (Store.findKeys (rangeOf .element 7) >>= _) _ = _
    rw [bind_of_ok hkeys]
    refine bind_of_error ?_
    show (dropFromKey oneDocument key { asked := 1 } >>= _) _ = _
    rw [bind_of_ok hdrop, hrest]
  have hstore : onStore
      (Store.locked .write (dropFromKinds oneDocument (· == 1) NameKind.all {})) i =
      .error (.removalStopped oneDocument.uri d.written) { i with store := s } :=
    on_eq_error_iff.mpr ⟨s, by rw [Store.locked_of_isFree hfree, hwalk], rfl⟩
  have hdocument : Index.dropDocument oneDocument (· == 1) i =
      .error (.removalStopped oneDocument.uri d.written) { i with store := s } :=
    bind_of_error hstore
  rw [dropOne, Request.run, hdocument]
  rfl

/-- The load is dropped if it is under the first key. -/
theorem run_dropOne_of_loaded (ho : i.store.Open)
    (hkeys : Store.findKeys (rangeOf .element 7) i.store = .ok (key :: key' :: keys) i.store)
    (hvalue : i.store.value? key = some loaded) :
    ∃ e s, s.SameAccess i.store ∧ s.value? key = some [] ∧
      dropOne.run i = .error e ({ i with store := s }, none) := by
  have hread : ∀ value, i.store.value? key = some value → (Block.scan value).fault? = none :=
    fun value hv => by
      obtain rfl := Option.some.inj (hvalue.symm.trans hv)
      rw [scan_loaded]
  -- The load is the document's only block, and cutting it out leaves nothing.
  have hcut : cutOut oneDocument (some loaded) = some [] := by
    rw [cutOut, Option.map_some, Block.cut, scan_loaded]
    rfl
  have hblock : hasBlockOf oneDocument.id (some loaded) = true := by
    rw [hasBlockOf, blocksOf, scan_loaded]
    rfl
  have hcases := @dropFromKey_cases _ oneDocument _ ho.calm hread { asked := 1 }
  rw [hvalue, hblock, hcut] at hcases
  rcases hcases with ⟨hnone, -⟩ | ⟨value, x, -, hempty, hwrites, hdrop⟩
  · cases hnone
  · obtain ⟨address, s, hx, haccess, hs⟩ := hwrites.written ho.writable
    rw [bind_of_ok hx] at hdrop
    refine ⟨_, s, haccess, ?_, run_dropOne ho.free hkeys hdrop rfl⟩
    rw [hs, if_pos rfl, ← hempty]

/-- Nothing is dropped if the first key has no block. -/
theorem run_dropOne_of_empty (ho : i.store.Open)
    (hkeys : Store.findKeys (rangeOf .element 7) i.store = .ok (key :: key' :: keys) i.store)
    (hvalue : i.store.value? key = some []) : ∃ e, dropOne.run i = .error e (i, none) := by
  have hread : ∀ value, i.store.value? key = some value → (Block.scan value).fault? = none :=
    fun value hv => by
      obtain rfl := Option.some.inj (hvalue.symm.trans hv)
      rw [scan_empty]
  have hblock : hasBlockOf oneDocument.id (some []) = false := by
    rw [hasBlockOf, blocksOf, scan_empty]
    rfl
  -- Whether the first key is written depends on whether it has a block.
  have hcases := @dropFromKey_cases _ oneDocument _ ho.calm hread { asked := 1 }
  rw [hvalue, hblock] at hcases
  rcases hcases with ⟨-, hdrop⟩ | ⟨value, x, hblock, -⟩
  · exact ⟨_, run_dropOne ho.free hkeys hdrop rfl⟩
  · cases hblock

/-- A load, a second key, a drop that is stopped, and the load again. -/
def loadTwice : List Request :=
  [.update (.flush (loadOf "a")), .update (.removeNodes oneDocument (elementOf "b") []), dropOne,
    .update (.flush (loadOf "a"))]

/-- The drop comes to the load first, or to the name that was asked for before. -/
theorem isOk_calls_loadTwice :
    (calls loadTwice fresh).map (·.outcome.isOk) = [true, true, false, true] ∧
    (calls loadTwice (afterQueries [askFor "b"] fresh)).map (·.outcome.isOk) =
      [true, true, false, false] := by
  have hne : "a" ≠ "b" := by decide
  have hopen : ∀ k k' t, (holdingBoth k k' t).store.Open := fun _ _ _ => ⟨rfl, rfl, fun _ => rfl⟩
  constructor
  -- The loaded name has the first code, and its block is dropped before the stop.
  · obtain ⟨t, t', ha, hb, ha', -⟩ := exists_ofName_two hne
    obtain ⟨answer, left?, hload⟩ := run_load_freshWith ha
    have hremove := run_removeNodes_holdingLoad (k := keyOfCode 1) hb rfl
    obtain ⟨e, s, haccess, hvalue, hdrop⟩ :=
      run_dropOne_of_loaded (hopen (keyOfCode 1) (keyOfCode 2) t') rfl rfl
    obtain ⟨answer', i', left?', hagain⟩ :=
      run_load_of_empty (i := { freshWith t' with store := s }) ha'
        ⟨haccess.isFree .write, haccess.readOnly, haccess.calm fun _ => rfl⟩ hvalue
    exact (map_isOk_calls_of_ok hload).trans (congrArg _ ((map_isOk_calls_of_ok hremove).trans
      (congrArg _ ((map_isOk_calls_of_error hdrop).trans
        (congrArg _ (map_isOk_calls_of_ok hagain))))))
  -- The name asked for has the first code, and the drop stops before it comes to the load.
  · obtain ⟨t, t', hb, ha, hb', ha'⟩ := exists_ofName_two hne.symm
    obtain ⟨answer, left?, hload⟩ := run_load_freshWith ha
    have hremove := run_removeNodes_holdingLoad (k := keyOfCode 2) hb' rfl
    obtain ⟨e, hdrop⟩ := run_dropOne_of_empty (hopen (keyOfCode 2) (keyOfCode 1) t') rfl rfl
    obtain ⟨e', x, hagain⟩ :=
      run_load_of_loaded (i := holdingBoth (keyOfCode 2) (keyOfCode 1) t') ha' rfl
    have hquery : afterQueries [askFor "b"] fresh = freshWith t := afterQueries_askFor hb
    rw [hquery]
    exact (map_isOk_calls_of_ok hload).trans (congrArg _ ((map_isOk_calls_of_ok hremove).trans
      (congrArg _ ((map_isOk_calls_of_error hdrop).trans
        (congrArg _ (map_isOk_calls_of_error hagain))))))

/-- Queries are noticed where they take the last code, and where a drop is stopped. -/
theorem isOk_calls_afterQuery :
    (Reached nearlyFull ∧ nearlyFull.store.Calm ∧
      (calls [.update (.flush (loadOf "c"))] nearlyFull).map (·.outcome.isOk) = [true] ∧
      (calls [.update (.flush (loadOf "c"))] (afterQueries [askFor "b"] nearlyFull)).map
        (·.outcome.isOk) = [false]) ∧
    Reached fresh ∧ fresh.store.Calm ∧
      (calls loadTwice fresh).map (·.outcome.isOk) = [true, true, false, true] ∧
      (calls loadTwice (afterQueries [askFor "b"] fresh)).map (·.outcome.isOk) =
        [true, true, false, false] :=
  ⟨⟨.start rfl, fun _ => rfl, isOk_calls_nearlyFull⟩, .start rfl, fun _ => rfl,
    isOk_calls_loadTwice⟩

end Noticed

end Index

end XmlIndex
