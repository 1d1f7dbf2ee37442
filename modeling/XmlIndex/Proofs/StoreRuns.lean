import XmlIndex.Proofs.StoreAddresses

/-! # Runs of a store

A run goes from one store to another by changes, successful or not, with the lock held for
reading or for writing; between the changes others may do what they like, as long as values and
addresses stay (`Store.Run`).  Its history has every change with what came of it.

In every run that starts with an empty store the store acts as a plain map, and an address that
was read tells whether the value is still the one that was read (`Store.Run.actsAsMap`).

Addresses are numbers without bound here.  A run of changes that can give out `n` addresses ends
with addresses below `n` more than the counter it began with, so they are words of 64 bits as
long as fewer than `2 ^ 64` are given out. -/

namespace XmlIndex

namespace Store

/-! ## Histories -/

/-- The changes that were asked for, with what came of them. -/
abbrev History := List (Change × Except Error (Option Nat))

namespace History

variable {history : History} {c : Change} {key : Bytes}

/-- What the changes that went through make of the empty map. -/
def values (history : History) : ValueMap :=
  history.foldl (fun m call =>
    match call.2 with
    | .ok _ => call.1.onMap m
    | .error _ => m) .empty

/-- A change that went through ended the life of the value that the key had. -/
def Superseded (history : History) (key : Bytes) : Prop :=
  ∃ c answer, (c, .ok answer) ∈ history ∧ c.Supersedes key

/-- How many addresses the changes can give out. -/
def allots (history : History) : Nat := history.foldl (fun n call => n + call.1.allots) 0

/-- A change that went through is made on the map. -/
theorem values_ok (history : History) (c : Change) (answer : Option Nat) :
    values (history ++ [(c, .ok answer)]) = c.onMap history.values := by
  rw [values, List.foldl_append]
  rfl

/-- A change that failed is not. -/
theorem values_error (history : History) (c : Change) (e : Error) :
    values (history ++ [(c, .error e)]) = history.values := by
  rw [values, List.foldl_append]
  rfl

/-- At first nothing is superseded. -/
theorem not_superseded_nil (key : Bytes) : ¬ Superseded [] key := by
  rintro ⟨c, answer, hmem, -⟩
  cases hmem

/-- A change that went through may supersede a value; what was superseded stays so. -/
theorem superseded_ok {answer : Option Nat} :
    Superseded (history ++ [(c, .ok answer)]) key ↔ history.Superseded key ∨ c.Supersedes key := by
  constructor
  · rintro ⟨c', answer', hmem, hends⟩
    rcases List.mem_append.mp hmem with hmem | hmem
    · exact .inl ⟨c', answer', hmem, hends⟩
    · obtain ⟨rfl, -⟩ := Prod.mk.inj (List.mem_singleton.mp hmem)
      exact .inr hends
  · rintro (⟨c', answer', hmem, hends⟩ | hends)
    · exact ⟨c', answer', List.mem_append_left _ hmem, hends⟩
    · exact ⟨c, answer, List.mem_append_right _ (List.mem_singleton.mpr rfl), hends⟩

/-- A change that failed supersedes nothing. -/
theorem superseded_error {e : Error} :
    Superseded (history ++ [(c, .error e)]) key ↔ history.Superseded key := by
  constructor
  · rintro ⟨c', answer', hmem, hends⟩
    rcases List.mem_append.mp hmem with hmem | hmem
    · exact ⟨c', answer', hmem, hends⟩
    · cases (Prod.mk.inj (List.mem_singleton.mp hmem)).2
  · rintro ⟨c', answer', hmem, hends⟩
    exact ⟨c', answer', List.mem_append_left _ hmem, hends⟩

/-- One more change may give out its addresses. -/
theorem allots_append_singleton (history : History) (c : Change)
    (outcome : Except Error (Option Nat)) :
    allots (history ++ [(c, outcome)]) = history.allots + c.allots := by
  rw [allots, List.foldl_append]
  rfl

end History

/-! ## Runs -/

variable {s : Store} {held : LockMode} {key : Bytes}

/-- What a history leads to from a store. -/
inductive Run (u : Store) : History → Store → Prop
  | refl : Run u [] u
  | change {history : History} {s : Store} (run : Run u history s) (held : LockMode) (c : Change) :
    Run u (history ++ [(c, Action.outcomeOf (c.run held s))]) (Action.stateOf (c.run held s))
  /-- Others may take and release the lock, protect the store, flush it and plan failures. -/
  | others {history : History} {s t : Store} (run : Run u history s)
    (entries : t.entries = s.entries) (nextAddress : t.nextAddress = s.nextAddress) :
    Run u history t

namespace Run

variable {start u s t : Store} {before since history : History}

/-- Two runs one after the other are one run. -/
theorem trans (hbefore : Run start before u) (hsince : Run u since s) :
    Run start (before ++ since) s := by
  induction hsince with
  | refl =>
    rw [List.append_nil]
    exact hbefore
  | change run held c ih =>
    rw [← List.append_assoc]
    exact ih.change held c
  | others run hentries hnext ih => exact ih.others hentries hnext

/-- What holds in the beginning, is kept by effects and does not depend on more than values and
addresses holds in the end, with the history that led there. -/
theorem induct {P : History → Store → Prop} (h : Run u history s) (refl : P [] u)
    (ok : ∀ {history s} c answer held, P history s → c.Allowed held s →
      P (history ++ [(c, .ok answer)]) (c.effect s))
    (error : ∀ {history s} c e, P history s → P (history ++ [(c, .error e)]) s)
    (others : ∀ {history s t}, P history s → t.entries = s.entries →
      t.nextAddress = s.nextAddress → P history t) : P history s := by
  induction h with
  | refl => exact refl
  | @change history s run held c ih =>
    -- A change has its whole effect or none; besides, only the plan of failures may differ.
    rcases c.run_cases held s with ⟨hallowed, t, hrun, hsame⟩ | ⟨-, e, t, hrun, hsame⟩
    · rw [hrun]
      exact others (ok c _ held ih hallowed) hsame.entries hsame.nextAddress
    · rw [hrun]
      exact others (error c e ih) hsame.entries hsame.nextAddress
  | others run hentries hnext ih => exact others ih hentries hnext

/-- In the end every address is as it was, or was superseded or given out on the way. -/
theorem follows (h : Run u history s) : s.Follows u history.Superseded := by
  refine h.induct (P := fun history s => s.Follows u history.Superseded) ?_ ?_ ?_ ?_
  · exact (Follows.refl u).congr fun key => ⟨False.elim, History.not_superseded_nil key⟩
  · intro history s c answer held ih hallowed
    -- What the change supersedes is added to the history.
    exact ((Change.follows_effect hallowed).trans ih).congr fun key =>
      History.superseded_ok.symm
  · intro history s c e ih
    exact ih.congr fun key => History.superseded_error.symm
  · intro history s t ih hentries hnext
    have hsame : t.Follows s fun _ => False :=
      follows_of_address?_eq hnext fun key => by rw [address?, hentries, address?]
    exact (hsame.trans ih).congr fun key => or_iff_left id

/-- In the end the addresses are in order. -/
theorem addressed (h : Run start history s) (hstart : start.entries = .empty) : s.Addressed :=
  h.follows.addressed (addressed_of_empty hstart)

/-- In the end the values are those of the map that the history makes. -/
theorem value?_eq (h : Run start history s) (hstart : start.entries = .empty) :
    s.value? = history.values := by
  -- Induction on the run.
  refine h.induct (P := fun history s => s.value? = history.values) ?_ ?_ ?_ ?_
  · exact funext (value?_of_empty hstart)
  · intro history s c answer held ih _
    rw [Change.value?_effect, History.values_ok, ih]
  · intro history s c e ih
    rw [History.values_error, ih]
  · intro history s t ih hentries _
    rw [← ih]
    exact funext fun key => by rw [value?, hentries, value?]

/-- The addresses given out are no more than the changes can give out. -/
theorem nextAddress_le (h : Run u history s) : s.nextAddress ≤ u.nextAddress + history.allots := by
  refine h.induct (P := fun history s => s.nextAddress ≤ u.nextAddress + history.allots)
    (Nat.le_refl _) ?_ ?_ ?_
  · intro history s c answer held ih _
    -- No change gives out more addresses than it is counted with.
    have heffect := c.nextAddress_effect_le s
    rw [History.allots_append_singleton]
    omega
  · intro history s c e ih
    rw [History.allots_append_singleton]
    omega
  · intro history s t ih _ hnext
    rw [hnext]
    exact ih

end Run

/-! ## Stores as maps -/

/-- A store `s` is to its callers the plain map that its history makes, and its addresses tell
whether a value is still the one that was read: from a store `u` the changes `before` led to,
the changes `since` led to `s`. -/
structure ActsAsMap (u s : Store) (before since : History) : Prop where
  /-- Reading a key answers the value of the map, with its address. -/
  get_eq : ∀ key, s.planned .get ≠ 1 → ∃ slot? t, Store.get key s = .ok slot? t ∧
    t.SameUpToPlan s ∧ slot?.map (·.data) = (before ++ since).values key ∧
    slot?.map (·.address) = s.address? key
  /-- Reading a range answers the selected keys with their values, in order. -/
  findEntries_eq : ∀ range, s.planned .findEntries ≠ 1 → ∃ pairs t,
    Store.findEntries range s = .ok pairs t ∧ t.SameUpToPlan s ∧
    (∀ key value, (key, value) ∈ pairs ↔
      range.matches? key ∧ (before ++ since).values key = some value) ∧
    pairs.Pairwise fun a b => compare a.1 b.1 = .lt
  /-- No two keys have one address. -/
  distinct : ∀ {key key' a}, s.address? key = some a → s.address? key' = some a → key = key'
  /-- A further change goes through exactly if it is allowed. -/
  run_ok_iff : ∀ held (c : Change),
    (∃ answer t, c.run held s = .ok answer t) ↔ c.Allowed held s
  /-- A further change that fails leaves every key, value and address as it was. -/
  run_error : ∀ {held e t} {c : Change}, c.run held s = .error e t →
    t.entries = s.entries ∧ t.nextAddress = s.nextAddress
  /-- A further change answers the address of the value that it wrote. -/
  run_answer : ∀ {held answer t} {c : Change}, c.run held s = .ok answer t →
    answer = c.written?.bind t.address?
  /-- Keys keep their addresses in a further change that does not supersede their values. -/
  run_keeps : ∀ {held answer t key a} {c : Change}, c.run held s = .ok answer t →
    ¬ c.Supersedes key → s.address? key = some a → t.address? key = some a
  /-- A key that was superseded or had no value gets an address that no key of `u` had. -/
  run_fresh : ∀ {held answer t key a} {c : Change}, c.run held s = .ok answer t →
    c.Supersedes key ∨ s.address? key = none → t.address? key = some a →
    ∀ key', u.address? key' ≠ some a
  /-- The address that a key of `u` had is good for updates of this key, until a change
  supersedes the value, and for no others ever. -/
  update_ok_iff : ∀ {key a}, u.address? key = some a → ∀ held key' value,
    (∃ answer t, Store.update held a key' value s = .ok answer t) ↔
      s.Permits .update held ∧ key' = key ∧ ¬ since.Superseded key
  /-- The changes gave out so many addresses at most. -/
  address_lt : ∀ {key a}, s.address? key = some a → a < u.nextAddress + since.allots

/-- Reading a key answers what is there, unless the read is planned to fail. -/
theorem exists_get (h : s.planned .get ≠ 1) (key : Bytes) :
    ∃ t, get key s = .ok (s.entries.get? key) t ∧ t.SameUpToPlan s := by
  obtain ⟨t, he, hsame⟩ := exists_enter h
  refine ⟨t, Action.bind_eq_ok_iff.mpr ⟨(), t, he, ?_⟩, hsame⟩
  rw [← hsame.entries]
  rfl

/-- Reading a range answers what is selected, unless the read is planned to fail. -/
theorem exists_findEntries (h : s.planned .findEntries ≠ 1) (range : KeyRange) :
    ∃ t, findEntries range s = .ok (s.contents.filter fun p => range.matches? p.1) t ∧
      t.SameUpToPlan s := by
  obtain ⟨t, he, hsame⟩ := exists_enter h
  refine ⟨t, Action.bind_eq_ok_iff.mpr ⟨(), t, he, ?_⟩, hsame⟩
  rw [← scan_eq_filter_contents, ← hsame.entries]
  rfl

/-- An update of a key goes through with the address of its value only. -/
theorem update_ok_iff {address : Nat} {value : Bytes} :
    (∃ answer t, Store.update held address key value s = .ok answer t) ↔
      s.Permits .update held ∧ s.address? key = some address := by
  have hrun : (∃ answer t, (Change.update address key value).run held s = .ok answer t) ↔
      ∃ answer t, Store.update held address key value s = .ok answer t := by
    constructor
    · rintro ⟨_, t, h⟩
      obtain ⟨answer, t', h, -⟩ := Action.bind_eq_ok_iff.mp h
      exact ⟨answer, t', h⟩
    · rintro ⟨answer, t, h⟩
      exact ⟨some answer, t, Action.bind_eq_ok_iff.mpr ⟨answer, t, h, rfl⟩⟩
  rw [← hrun]
  exact Change.run_ok_iff

namespace Run

variable {start u s : Store} {before since : History}

/-- In every run from an empty store the store acts as a map. -/
theorem actsAsMap (hstart : start.entries = .empty) (hbefore : Run start before u)
    (hsince : Run u since s) : ActsAsMap u s before since := by
  have hrun := hbefore.trans hsince
  have hu := hbefore.addressed hstart
  have hs := hrun.addressed hstart
  have hfollows := hsince.follows
  have hvalues := hrun.value?_eq hstart
  refine {
    get_eq := fun key hplanned => ?_
    findEntries_eq := fun range hplanned => ?_
    distinct := hs.distinct
    run_ok_iff := fun held c => Change.run_ok_iff
    run_error := fun h => ?_
    run_answer := fun h => ?_
    run_keeps := fun h hstays hkey => ?_
    run_fresh := fun h hnew hkey key' hkey' => ?_
    update_ok_iff := fun hkey held key' value => ?_
    address_lt := fun hkey => Nat.lt_of_lt_of_le (hs.lt_next hkey) hsince.nextAddress_le }
  -- A value is read off the map that the history has made.
  · obtain ⟨t, hget, hsame⟩ := exists_get hplanned key
    exact ⟨_, t, hget, hsame, by rw [← hvalues, value?], rfl⟩
  · obtain ⟨t, hfind, hsame⟩ := exists_findEntries hplanned range
    refine ⟨_, t, hfind, hsame, fun key value => ?_, s.ascending_contents.filter _⟩
    rw [List.mem_filter, mem_contents_iff, hvalues, and_comm]
  · have hsame := Change.run_eq_error h
    exact ⟨hsame.entries, hsame.nextAddress⟩
  · exact (Change.run_eq_ok h).2.1
  · obtain ⟨hallowed, -, hsame⟩ := Change.run_eq_ok h
    rw [hsame.address?]
    exact (Change.follows_effect hallowed).kept hstays hkey
  · obtain ⟨hallowed, -, hsame⟩ := Change.run_eq_ok h
    rw [hsame.address?] at hkey
    -- An address after the change is an old one that stayed, or a new one beyond all before.
    rcases (Change.follows_effect hallowed).origin hkey with ⟨hold, hstays⟩ | hle
    · rcases hnew with hends | hnone
      · exact hstays hends
      · rw [hnone] at hold
        cases hold
    · exact Nat.not_lt.mpr (Nat.le_trans hfollows.next_le hle) (hu.lt_next hkey')
  · rw [Store.update_ok_iff]
    refine and_congr_right fun _ => ⟨fun hkey' => ?_, ?_⟩
    -- An address is never given out again, so it is still that of the key.
    · obtain rfl := hfollows.eq_of_address? hu hkey hkey'
      exact ⟨rfl, fun hends => hfollows.ne_of_gone hu hkey hends hkey'⟩
    · rintro ⟨rfl, hstays⟩
      exact hfollows.kept hstays hkey

/-- A value that is removed and put again is at another address, and the old address is refused. -/
theorem actsAsMap_putAgain :
    ∃ u s : Store, u.address? [1] = some 1 ∧ s.address? [1] = some 2 ∧
      ActsAsMap u s [(.put [1] [5], .ok (some 1))]
        [(.remove [1], .ok none), (.put [1] [6], .ok (some 2))] ∧
      ¬ ∃ answer t, Store.update .write 1 [1] [7] s = .ok answer t := by
  let start : Store := { name := "x", timeout := ⟨0⟩ }
  have hbefore : Run start [(.put [1] [5], .ok (some 1))] _ := Run.refl.change .write _
  have hmap := actsAsMap rfl hbefore
    ((Run.refl.change .write (.remove [1])).change .write (.put [1] [6]))
  refine ⟨_, _, rfl, rfl, hmap, fun h => ?_⟩
  exact ((hmap.update_ok_iff rfl _ _ _).mp h).2.2 ⟨.remove [1], none, .head _, rfl⟩

end Run

end Store

end XmlIndex
