import XmlIndex.Proofs.DropsAlike

/-! # Requests to an index

A caller makes requests to an index, updates and queries, one after the other (`Index.calls`).  It
is told the answer or the class of the failure, and is left with what was not written of its
batch (`Index.Call.report`).

A query gives codes to the names that it is asked for, and changes nothing else
(`Index.Query.keeps_run`). -/

namespace XmlIndex

open XmlIndex.Action

namespace Index

/-! ## Requests -/

/-- A query for the nodes of a name. -/
inductive Query where
  | lookup (kind : NameKind) (docs : DocumentSet) (name : QName) (select? : Option Selector)
  | join (kind : NameKind) (axis : Axis) (docs : DocumentSet) (name : QName) (context : NodeSet)
      (contextId? : Option UInt32)

/-- What a query is answered. -/
def Query.run : Query → Action Index NodeSet
  | lookup kind docs name select? => Index.lookup kind docs name select?
  | join kind axis docs name context contextId? =>
    Index.join kind axis docs name context contextId?

/-- The answers to requests. -/
inductive Answer where
  | written (summary : FlushSummary)
  | removed
  | dropped (count : Nat)
  | found (nodes : NodeSet)

/-- An update or a query. -/
inductive Request where
  | update (op : Op)
  | query (q : Query)

/-- A result with the answer, and of the state the index and the batch that is waiting. -/
def answering {σ α : Type} (index : σ → Index) (left? : σ → Option Batch) (answer : α → Answer) :
    EStateM.Result Error σ α → EStateM.Result Error (Index × Option Batch) Answer
  | .ok a s => .ok (answer a) (index s, left? s)
  | .error e s => .error e (index s, left? s)

/-- What a request comes to, and what is left of its batch if it has one. -/
def Request.run (request : Request) (i : Index) :
    EStateM.Result Error (Index × Option Batch) Answer :=
  match request with
  | update (.flush batch) =>
    answering (·.index) (some ·.batch) .written (Index.flush (flushing i batch))
  | update (.removeNodes document name removed) =>
    answering id (fun _ => none) (fun _ => .removed) (Index.removeNodes document name removed i)
  | update (.removeBatch batch) =>
    answering (·.1) (some ·.2) (fun _ => .removed) (Index.removeBatch (i, batch))
  | update (.dropDocument document stop) =>
    answering id (fun _ => none) .dropped (Index.dropDocument document stop i)
  | update (.dropCollection collection) =>
    answering id (fun _ => none) .dropped (Index.dropCollection collection i)
  | query q => answering id (fun _ => none) .found (q.run i)

/-- A request, the index it was made on, what came of it and what was left of its batch. -/
structure Call where
  before : Index
  request : Request
  outcome : Except Error Answer
  left? : Option Batch

/-- A request made on an index. -/
def Request.call (request : Request) (i : Index) : Call :=
  ⟨i, request, outcomeOf (request.run i), (stateOf (request.run i)).2⟩

/-- Requests one after the other, whatever comes of each. -/
def calls : List Request → Index → List Call
  | [], _ => []
  | request :: requests, i =>
    request.call i :: calls requests (stateOf (request.run i)).1

/-- The index after some queries. -/
def afterQueries (queries : List Query) (i : Index) : Index :=
  queries.foldl (fun i q => stateOf (q.run i)) i

namespace Call

/-- What a caller is told, and the batch it is left with. -/
def report (c : Call) : Except Error.Kind Answer × Option Batch :=
  (c.outcome.mapError Error.kind, c.left?)

/-- The call was not refused for want of a code. -/
def Coded (c : Call) : Prop := c.outcome ≠ .error .symbolsExhausted

/-- The call was no drop that was stopped. -/
def Unstopped (c : Call) : Prop := ∀ uri n, c.outcome ≠ .error (.removalStopped uri n)

/-- If the call drops a document, all values of its collection can be read. -/
def Readable (c : Call) : Prop :=
  ∀ document stop, c.request = .update (.dropDocument document stop) →
    c.before.store.ReadableIn document.collection NameKind.all

end Call

section Requests

variable {σ α : Type} {index : σ → Index} {left? : σ → Option Batch} {answer : α → Answer}

/-- The outline of a request is that of its call. -/
theorem outline_answering (r : EStateM.Result Error σ α) :
    Op.outline (·.1) (answering index left? answer r) = Op.outline index r := by
  cases r <;> rfl

/-- A request fails if its call does. -/
theorem outcomeOf_answering {r : EStateM.Result Error σ α} {e : Error}
    (h : outcomeOf r = .error e) : outcomeOf (answering index left? answer r) = .error e := by
  cases r with
  | ok a s => cases h
  | error e' s => exact congrArg _ (Except.error.inj h)

/-- An update does to the index what its call does. -/
theorem outline_run (op : Op) (i : Index) :
    Op.outline (·.1) ((Request.update op).run i) = op.run i := by
  cases op with
  | removeNodes document name removed =>
    refine (outline_answering _).trans ?_
    show _ = Index.removeNodes document name removed i
    cases Index.removeNodes document name removed i <;> rfl
  | flush batch | removeBatch batch | dropDocument document stop | dropCollection collection =>
    exact outline_answering _

/-- An update leaves the index that its call leaves. -/
theorem stateOf_run_update (op : Op) (i : Index) :
    (stateOf ((Request.update op).run i)).1 = stateOf (op.run i) := by
  rw [← outline_run]
  cases (Request.update op).run i <;> rfl

end Requests

/-! ## Queries -/

namespace Query

/-- Only codes are given. -/
def OnlyCodes (i' i : Index) : Prop :=
  i'.store.SameUpToPlan i.store ∧ i'.symbols.Extends i.symbols

/-- Nothing is given, to begin with. -/
theorem onlyCodes_refl (i : Index) : OnlyCodes i i := ⟨.refl _, .refl _⟩

/-- Only codes in two steps are only codes. -/
theorem OnlyCodes.trans (i i' i'' : Index) (h' : OnlyCodes i'' i') (h : OnlyCodes i' i) :
    OnlyCodes i'' i := ⟨h'.1.trans h.1, h'.2.trans h.2⟩

/-- Forming a key gives only codes. -/
theorem keeps_keyOf (kind : NameKind) (collection : CollectionId) (name : QName) :
    Keeps OnlyCodes (keyOf kind collection name) := fun i => by
  cases h : Key.ofName kind collection name i.symbols with
  | ok k t =>
    rw [keyOf_of_ok h]
    exact ⟨.refl _, (Key.ofName_eq_ok h).2⟩
  | error e t =>
    rw [keyOf_of_error h]
    exact ⟨.refl _, Key.ofName_eq_error h⟩

/-- Reading a value changes nothing. -/
theorem keeps_readValue (key : Key) : Keeps OnlyCodes (readValue key) := by
  refine Keeps.bind OnlyCodes.trans (fun i => ?_) fun slot? => Keeps.pure onlyCodes_refl _
  have hget : Keeps (fun s' s => s'.SameUpToPlan s)
      (Store.locked .read (Store.get key.toBytes)) :=
    Store.keeps_locked Store.SameUpToPlan.refl .read (Store.keeps_get (fun _ _ h => h) _)
  have hstore := hget i.store
  unfold onStore Action.on
  cases h : Store.locked .read (Store.get key.toBytes) i.store with
  | ok slot? s | error e s =>
    rw [h] at hstore
    exact ⟨hstore, .refl _⟩

/-- Visiting values gives only codes. -/
theorem keeps_visitValues (kind : NameKind) (name : QName)
    (visit : Findings → Block → Except Error Findings) (collections : List CollectionId)
    (f : Findings) : Keeps OnlyCodes (visitValues kind name visit collections f) := by
  -- Induction on the collections, whatever was found so far.
  induction collections generalizing f with
  | nil => exact Keeps.pure onlyCodes_refl f
  | cons collection collections ih =>
    refine Keeps.bind OnlyCodes.trans (keeps_keyOf _ _ _) fun key => ?_
    refine Keeps.bind OnlyCodes.trans (keeps_readValue key) fun value? => ?_
    cases value? with
    | none => exact ih _
    | some value =>
      exact Keeps.bind OnlyCodes.trans (Keeps.ofExcept onlyCodes_refl _) ih

/-- Whatever a query comes to, it has only given codes. -/
theorem keeps_run (q : Query) : Keeps OnlyCodes q.run := by
  cases q with
  | lookup kind docs name select? =>
    exact Keeps.bind OnlyCodes.trans (keeps_visitValues _ _ _ _ _) fun _ =>
      Keeps.pure onlyCodes_refl _
  | join kind axis docs name context contextId? =>
    exact Keeps.bind OnlyCodes.trans (keeps_visitValues _ _ _ _ _) fun _ =>
      Keeps.pure onlyCodes_refl _

end Query

end Index

end XmlIndex
