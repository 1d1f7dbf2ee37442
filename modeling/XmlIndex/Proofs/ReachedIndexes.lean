import XmlIndex.Proofs.IndexContents
import XmlIndex.Proofs.StoreAccess

/-! # Reached indexes

The runs of `Index.Run` keep to the limits of the format, so that whatever they store can be read
back.  An index is reached (`Index.Reached`) if it comes about by calls in any case, be it beyond
these limits.  Its values may then be damaged, but its keys are still those of names that have
their codes (`Index.Reached.keysNamed`): a value comes to stand under a new key only where the key
of a name was formed. -/

namespace XmlIndex

open XmlIndex.Action

namespace Store

variable {s s' s'' : Store} {t t' : SymbolTable}

/-! ## Keys of names -/

/-- Keys of names stay such if what is new is under keys of names. -/
theorem KeysNamed.of_value? (h : s.KeysNamed t) (hext : t'.Extends t)
    (hkeys : ∀ key, (s'.value? key).isSome → (s.value? key).isSome ∨ Key.Named t' key) :
    s'.KeysNamed t' := fun key hv =>
  (hkeys key hv).elim (fun hold => (h key hold).of_extends hext) fun hnamed => hnamed

/-- Keys of names stay such while the contents do. -/
theorem KeysNamed.of_sameContents (h : s.KeysNamed t) (hs : s'.SameContents s)
    (hext : t'.Extends t) : s'.KeysNamed t' :=
  h.of_value? hext fun key hv => .inl (hs.value? key ▸ hv)

/-- A value may be put under a key that was formed. -/
theorem KeysNamed.put {kind : NameKind} {collection : CollectionId} {q : QName} {k : Key}
    {value : Bytes} (h : s.KeysNamed t) (formed : Key.ofName kind collection q t = .ok k t')
    (hs : ∀ key, s'.value? key = if key = k.toBytes then some value else s.value? key) :
    s'.KeysNamed t' := by
  obtain ⟨hlookup, hext⟩ := Key.ofName_eq_ok formed
  refine h.of_value? hext fun key hv => ?_
  rw [hs] at hv
  split at hv
  · next hkey => exact .inr ⟨kind, collection, q, k, hlookup, hkey⟩
  · exact .inl hv

/-- There is no value under a key that there was none under before. -/
def NoNewKeys (s' s : Store) : Prop := ∀ key, (s'.value? key).isSome → (s.value? key).isSome

/-- No new keys in two steps are no new keys. -/
theorem NoNewKeys.trans (s s' s'' : Store) (h' : s''.NoNewKeys s') (h : s'.NoNewKeys s) :
    s''.NoNewKeys s := fun key hv => h key (h' key hv)

/-- Planning failures makes no keys. -/
theorem SameUpToPlan.noNewKeys (s s' : Store) (h : s'.SameUpToPlan s) : s'.NoNewKeys s :=
  fun key hv => h.value? key ▸ hv

/-- An update replaces a value that is there. -/
theorem noNewKeys_update (address : Nat) (key value : Bytes) :
    Keeps NoNewKeys (update .write address key value) := by
  refine Keeps.bind NoNewKeys.trans (keeps_enterChange SameUpToPlan.noNewKeys .update) fun _ =>
    Keeps.get_bind fun s => ?_
  cases hslot : s.entries.get? key with
  | none => exact fun _ hv => hv
  | some slot =>
    dsimp only
    -- Only the address of the value is good for an update.
    split
    · intro key' hv
      have hv' : ((s.updated address key value).value? key').isSome := hv
      rw [value?_updated] at hv'
      split at hv'
      · next hkey => rw [hkey, value?_of_get? hslot]; rfl
      · exact hv'
    · exact fun _ hv => hv

end Store

namespace Batch

/-- Commits put values under the keys of their names. -/
theorem Commits.keysNamed {b : Batch} {names : List QName} {t t' : SymbolTable} {s s' : Store}
    (h : b.Commits names t s t' s') (hs : s.KeysNamed t) : s'.KeysNamed t' := by
  induction h with
  | nil => exact hs
  | cons known formed accepted rest ih =>
    exact ih (hs.put formed fun key => Store.value?_appended _ _ _ key)

end Batch

namespace Index

variable {i i' : Index}

/-- A removal keeps the keys those of names. -/
theorem keysNamed_of_removeNodes (h : i.store.KeysNamed i.symbols) (document : Document)
    (name : QName) (removed : List NodeId) :
    (stateOf (removeNodes document name removed i)).store.KeysNamed
      (stateOf (removeNodes document name removed i)).symbols := by
  -- It has put a value under the key of its name, or has changed none.
  cases hr : removeNodes document name removed i with
  | ok a i' =>
    obtain ⟨k, value, formed, _, hs⟩ := removeNodes_eq_ok hr
    exact h.put formed hs
  | error e i' =>
    obtain ⟨hsame, hsymbols⟩ := removeNodes_eq_error hr
    refine h.of_sameContents hsame.sameContents ?_
    show i'.symbols.Extends i.symbols
    rw [hsymbols]
    exact extends_stateOf_ofName _ _ _ _

/-- Removals keep the keys those of names. -/
theorem Removals.keysNamed {b : Batch} {names : List QName} (h : Removals b names i i')
    (hs : i.store.KeysNamed i.symbols) : i'.store.KeysNamed i'.symbols := by
  induction h with
  | nil => exact hs
  | @cons q names nodes _ _ _ known removed rest ih =>
    have hfirst := keysNamed_of_removeNodes hs b.document q (nodes.map (·.node))
    rw [removed] at hfirst
    exact ih hfirst

/-- A change that makes no value out of none keeps the keys those of names. -/
theorem keysNamed_of_changedAt {done : Bytes → Prop} {f : Option Bytes → Option Bytes}
    (h : i.store.KeysNamed i.symbols) (hf : f none = none) (hsymbols : i'.symbols = i.symbols)
    (hchanged : Store.ChangedAt f done i.store i'.store) : i'.store.KeysNamed i'.symbols := by
  rw [hsymbols]
  refine h.of_value? (.refl _) fun key hv => .inl ?_
  -- A key without a value would have to get one from nothing.
  cases hold : i.store.value? key with
  | some value => rfl
  | none =>
    by_cases hdone : done key
    · rw [(hchanged key).1 hdone, hold, hf] at hv
      cases hv
    · rw [(hchanged key).2 hdone, hold] at hv
      cases hv

/-- A drop of a document touches the store only, and puts no value under a new key. -/
theorem keysNamed_of_dropDocument (h : i.store.KeysNamed i.symbols) (document : Document)
    (stop : Nat → Bool) :
    (stateOf (dropDocument document stop i)).store.KeysNamed
      (stateOf (dropDocument document stop i)).symbols := by
  -- A drop writes only under keys it has read a value of.
  have hkeys : Keeps Store.NoNewKeys
      (Store.locked .write (dropFromKinds document stop NameKind.all {})) :=
    Store.keeps_locked (fun _ _ hv => hv) .write (keeps_dropFromKinds Store.NoNewKeys.trans
      Store.SameUpToPlan.noNewKeys Store.noNewKeys_update document stop NameKind.all {})
  have hdrop : Keeps (fun i' i : Index => i'.symbols = i.symbols ∧ i'.store.NoNewKeys i.store)
      (dropDocument document stop) := by
    refine Keeps.bind (fun _ _ _ h' h => ⟨h'.1.trans h.1, h'.2.trans _ _ _ h.2⟩) (fun i => ?_)
      fun _ => Keeps.pure (fun _ => ⟨rfl, fun _ hv => hv⟩) _
    have hstore := hkeys i.store
    unfold onStore Action.on
    cases hr : Store.locked .write (dropFromKinds document stop NameKind.all {}) i.store with
    | ok d s | error e s =>
      rw [hr] at hstore
      exact ⟨rfl, hstore⟩
  obtain ⟨hsymbols, hstore⟩ := hdrop i
  rw [hsymbols]
  exact h.of_value? (.refl _) fun key hv => .inl (hstore key hv)

/-- Every call keeps the keys those of names, whatever it comes to. -/
theorem Op.keysNamed_run (op : Op) (h : i.store.KeysNamed i.symbols) :
    (stateOf (op.run i)).store.KeysNamed (stateOf (op.run i)).symbols := by
  -- A flush and a removal form keys of names; a drop makes no new keys.
  cases op with
  | flush batch =>
    rw [run, ← flushAmid_none]
    cases hr : flushAmid .none (flushing i batch) with
    | ok summary f =>
      obtain ⟨s, hcommits, hsame, _⟩ := flushAmid_eq_ok hr
      exact (hcommits.keysNamed h).of_sameContents hsame (.refl _)
    | error e f =>
      obtain ⟨committed, name, waiting, t, s, hi, _⟩ := flushAmid_eq_error hr
      exact (hi.commits.keysNamed h).of_sameContents hi.sameContents hi.extends_symbols
  | removeNodes document name removed => exact keysNamed_of_removeNodes h document name removed
  | removeBatch batch =>
    rw [run]
    cases hr : Index.removeBatch (i, batch) with
    | ok a state => exact (removeBatch_eq_ok hr).keysNamed h
    | error e state =>
      obtain ⟨done, q, waiting, i₁, nodes, _, hdone, _, hfailed⟩ := removeBatch_eq_error hr
      -- The removal that failed may have formed a key, too.
      have hlast := keysNamed_of_removeNodes (hdone.keysNamed h) batch.document q
        (nodes.map (·.node))
      rw [hfailed] at hlast
      exact hlast
  | dropDocument document stop =>
    rw [run]
    have hdrop := keysNamed_of_dropDocument h document stop
    cases hr : Index.dropDocument document stop i with
    | ok count i' | error e i' =>
      rw [hr] at hdrop
      exact hdrop
  | dropCollection collection =>
    rw [run]
    cases hr : Index.dropCollection collection i with
    | ok count i' =>
      obtain ⟨hsymbols, hcleared⟩ := dropCollection_eq_ok hr
      exact keysNamed_of_changedAt h rfl hsymbols hcleared.changedAt
    | error e i' =>
      obtain ⟨hsymbols, _, _, _, _, hchanged⟩ := dropCollection_eq_error hr
      exact keysNamed_of_changedAt h rfl hsymbols hchanged

/-- An index that calls come to from an empty store.  Between the calls others may do to the lock,
to the write protection and to the planned failures what they like, and names may get codes. -/
inductive Reached : Index → Prop
  | start {i : Index} (empty : i.store.entries = .empty) : Reached i
  | call {i : Index} (op : Op) (before : Reached i) : Reached (stateOf (op.run i))
  | others {i : Index} {s : Store} {t : SymbolTable} (before : Reached i)
      (same : s.SameContents i.store) (grown : t.Extends i.symbols) :
      Reached { i with store := s, symbols := t }

/-- All keys of a reached index are those of names that have their codes. -/
theorem Reached.keysNamed (h : Reached i) : i.store.KeysNamed i.symbols := by
  induction h with
  | start empty =>
    intro key hv
    rw [Store.value?_of_empty empty] at hv
    cases hv
  | call op before ih => exact op.keysNamed_run ih
  | others before same grown ih => exact ih.of_sameContents same grown

/-- What a run within the limits of the format comes to is reached. -/
theorem Run.reached {admits : Op → Prop} {calls : List (Op × Except Error Unit)}
    (h : Run admits calls i) : Reached i := by
  induction h with
  | start empty => exact .start empty
  | call before admitted fits ih => exact .call _ ih
  | others before same grown ih => exact .others ih same grown

end Index

end XmlIndex
