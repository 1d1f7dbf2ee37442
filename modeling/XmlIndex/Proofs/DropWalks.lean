import Mathlib.Data.List.Nodup
import XmlIndex.Proofs.BlockRewriting

/-! # Walks that cut out a document

Dropping a document goes through the keys of its collection, family by family and ascending within
each (`Store.keysIn`).  What such a walk comes to is said once, for any store: it has cut the
document out of the values under the keys in front of some point (`Index.Strips`), and if that is
not the end there is a reason for it at the next key (`Index.Halts`).  `Index.DropWalk` has both
ways to end.

`dropFromKey_strips` and `dropFromKey_refused` say what one key can come to; a walk goes on where
another one ended by `DropWalk.append`, and from these follow `walk_dropFromKeys` and
`walk_dropFromKinds` by induction. -/

namespace XmlIndex

open Index (rangeOf)

namespace Index

/-- The keys of these families in a collection. -/
def KeysOf (kinds : List NameKind) (collection : CollectionId) (key : Bytes) : Prop :=
  ∃ kind ∈ kinds, (Key.head kind collection).isPrefixOf key

/-- No key is of no family. -/
theorem not_keysOf_nil {collection : CollectionId} {key : Bytes} : ¬ KeysOf [] collection key :=
  fun hkey => by
    obtain ⟨_, hmem, _⟩ := hkey
    cases hmem

/-- A key is of the first family or of one of the others. -/
theorem keysOf_cons {kind : NameKind} {kinds : List NameKind} {collection : CollectionId}
    {key : Bytes} : KeysOf (kind :: kinds) collection key ↔
      (Key.head kind collection).isPrefixOf key ∨ KeysOf kinds collection key := by
  simp [KeysOf]

end Index

open Index (KeysOf)

namespace Store

variable {s s₁ s' : Store} {collection : CollectionId} {kinds : List NameKind} {key : Bytes}

/-! ## The keys of a collection -/

/-- The selected keys, ascending. -/
def select (s : Store) (range : KeyRange) : List Bytes :=
  (range.scan s.entries.entries).map (·.1)

/-- The selected keys ascend, as the entries of the store do. -/
theorem ascending_select (s : Store) (range : KeyRange) :
    (s.select range).Pairwise fun a b => compare a b = .lt := by
  rw [select, KeyRange.scan_eq_filter range s.entries.ascending, List.pairwise_map]
  exact s.entries.ascending.filter _

/-- No key is selected twice. -/
theorem nodup_select (s : Store) (range : KeyRange) : (s.select range).Nodup :=
  SortedMap.nodup_of_ascending (s.ascending_select range)

/-- As many keys go as are selected. -/
theorem size_without (s : Store) (range : KeyRange) :
    (s.without range).size + (s.select range).length = s.size := by
  have hsplit := List.length_eq_length_filter_add (l := s.entries.entries)
    fun e => range.matches? e.1
  rw [size, SortedMap.size, entries_without, select, List.length_map,
    KeyRange.scan_eq_filter range s.entries.ascending, Nat.add_comm]
  exact hsplit.symm

/-- The keys of these families in a collection, family by family. -/
def keysIn (s : Store) (collection : CollectionId) (kinds : List NameKind) : List Bytes :=
  kinds.flatMap fun kind => s.select (rangeOf kind collection)

/-- The keys are those of these families that there is a value under. -/
theorem mem_keysIn :
    key ∈ s.keysIn collection kinds ↔ KeysOf kinds collection key ∧ (s.value? key).isSome := by
  simp only [keysIn, List.mem_flatMap, select, mem_scan, value?, Option.isSome_map]
  constructor
  · rintro ⟨kind, hkind, hkey, hsome⟩
    exact ⟨⟨kind, hkind, hkey⟩, hsome⟩
  · rintro ⟨⟨kind, hkind, hkey⟩, hsome⟩
    exact ⟨kind, hkind, hkey, hsome⟩

/-- All values of these families in a collection are made of blocks. -/
def ReadableIn (s : Store) (collection : CollectionId) (kinds : List NameKind) : Prop :=
  ∀ key value, KeysOf kinds collection key → s.value? key = some value →
    (Block.scan value).fault? = none

/-- No key is of two families. -/
theorem kind_eq_of_matches {kind kind' : NameKind} (h : (rangeOf kind collection).matches? key)
    (h' : (rangeOf kind' collection).matches? key) : kind = kind' := by
  -- A key starts with the code of its family.
  obtain ⟨rest, hrest⟩ := List.isPrefixOf_iff_prefix.mp h
  obtain ⟨rest', hrest'⟩ := List.isPrefixOf_iff_prefix.mp h'
  exact NameKind.toByte_inj (List.cons.inj (hrest.trans hrest'.symm)).1

/-- No key comes up twice, since none is of two families. -/
theorem nodup_keysIn (s : Store) (collection : CollectionId) (hkinds : kinds.Nodup) :
    (s.keysIn collection kinds).Nodup := by
  refine List.nodup_flatMap.mpr ⟨fun kind _ => s.nodup_select _, hkinds.imp ?_⟩
  intro kind kind' hne key hkey hkey'
  exact hne (kind_eq_of_matches (mem_scan.mp hkey).1 (mem_scan.mp hkey').1)

/-- The keys depend on nothing but where there are values. -/
theorem keysIn_congr (h : ∀ key, KeysOf kinds collection key →
    (s'.value? key).isSome = (s.value? key).isSome) :
    s'.keysIn collection kinds = s.keysIn collection kinds := by
  refine List.flatMap_congr fun kind hkind => ?_
  -- Both lists ascend, and they have the same elements.
  refine SortedMap.eq_of_perm_of_ascending id ?_ (s'.ascending_select _) (s.ascending_select _)
  refine (List.perm_ext_iff_of_nodup (s'.nodup_select _) (s.nodup_select _)).mpr fun key => ?_
  rw [select, select, mem_scan, mem_scan]
  refine and_congr_right fun hkey => ?_
  have hsome := h key ⟨kind, hkind, hkey⟩
  rw [value?, value?, Option.isSome_map, Option.isSome_map] at hsome
  rw [hsome]

end Store

/-! ## Values without a document -/

/-- The slot with its value cut. -/
def Slot.cut (doc : DocId) (slot : Slot) : Slot := { slot with data := Block.cut doc slot.data }

namespace Store

variable {s s₁ s' : Store} {doc : DocId} {keys keys' : List Bytes} {key : Bytes}

/-- The value under the key, if there is one, is made of blocks. -/
def ReadableAt (s : Store) (key : Bytes) : Prop :=
  ∀ value, s.value? key = some value → (Block.scan value).fault? = none

/-- Under these keys the values have lost the blocks of a document, at their addresses.  Nothing
else has changed, up to planned failures. -/
structure CutAt (doc : DocId) (keys : List Bytes) (s s' : Store) : Prop where
  slots : ∀ key, s'.entries.get? key =
    if key ∈ keys then (s.entries.get? key).map (Slot.cut doc) else s.entries.get? key
  rest : s'.SameUpToPlan { s with entries := s'.entries }

/-- Entries may be exchanged before or after a planned failure has come nearer. -/
theorem SameUpToPlan.withEntries (h : s'.SameUpToPlan s) (entries : SortedMap Bytes Slot) :
    ({ s' with entries } : Store).SameUpToPlan { s with entries } := by
  have hcalm := h.calm
  rw [h.eq] at hcalm ⊢
  exact ⟨rfl, hcalm⟩

namespace CutAt

/-- Where nothing is cut, nothing changes. -/
theorem of_sameUpToPlan (h : s'.SameUpToPlan s) : CutAt doc [] s s' := by
  refine ⟨fun key => ?_, ?_⟩
  · rw [if_neg List.not_mem_nil, h.entries]
  · rw [h.entries]
    exact h

/-- A value from which nothing is cut need not be written. -/
theorem of_unchanged (h : s'.SameUpToPlan s)
    (hself : (s.entries.get? key).map (Slot.cut doc) = s.entries.get? key) :
    CutAt doc [key] s s' := by
  have hnone : CutAt doc [] s s' := of_sameUpToPlan h
  refine ⟨fun key' => ?_, hnone.rest⟩
  rw [h.entries]
  split
  · next hmem => rw [List.mem_singleton.mp hmem, hself]
  · rfl

/-- An update at the address of the value cuts it. -/
theorem of_updated {slot : Slot} (hslot : s.entries.get? key = some slot)
    (h : s'.SameUpToPlan (s.updated slot.address key (Block.cut doc slot.data))) :
    CutAt doc [key] s s' := by
  refine ⟨fun key' => ?_, ?_⟩
  · rw [h.entries, updated, SortedMap.get?_insert_eq]
    by_cases hkey : key' = key
    · rw [if_pos hkey, if_pos (List.mem_singleton.mpr hkey), hkey, hslot]
      rfl
    · rw [if_neg hkey, if_neg (mt List.mem_singleton.mp hkey)]
  · rw [h.entries]
    exact h

/-- The slots under other keys stay. -/
theorem get?_of_not_mem (h : CutAt doc keys s s') (hkey : key ∉ keys) :
    s'.entries.get? key = s.entries.get? key := by
  rw [h.slots, if_neg hkey]

/-- Under these keys the values are cut. -/
theorem value?_of_mem (h : CutAt doc keys s s') (hkey : key ∈ keys) :
    s'.value? key = (s.value? key).map (Block.cut doc) := by
  rw [value?, h.slots, if_pos hkey, value?]
  cases s.entries.get? key <;> rfl

/-- The values under other keys stay. -/
theorem value?_of_not_mem (h : CutAt doc keys s s') (hkey : key ∉ keys) :
    s'.value? key = s.value? key := by
  rw [value?, h.get?_of_not_mem hkey, value?]

/-- There are values where there were values, though they may have become empty. -/
theorem isSome_value? (h : CutAt doc keys s s') (key : Bytes) :
    (s'.value? key).isSome = (s.value? key).isSome := by
  by_cases hkey : key ∈ keys
  · rw [h.value?_of_mem hkey, Option.isSome_map]
  · rw [h.value?_of_not_mem hkey]

/-- A store that is cut can be written if it could before. -/
theorem readOnly (h : CutAt doc keys s s') : s'.readOnly = s.readOnly := h.rest.readOnly

/-- A store that is cut keeps its name. -/
theorem name (h : CutAt doc keys s s') : s'.name = s.name := h.rest.name

/-- A store that is cut has its lock held as before. -/
theorem isFree (h : CutAt doc keys s s') (mode : LockMode) : s'.isFree mode = s.isFree mode := by
  rw [h.rest.isFree]
  cases mode <;> rfl

/-- A store that is cut has no failure planned if it had none before. -/
theorem calm (h : CutAt doc keys s s') (hs : s.Calm) : s'.Calm := h.rest.calm hs

/-- Keys that are cut twice are cut once, as long as their values can be read. -/
theorem append (h : CutAt doc keys s s₁) (h' : CutAt doc keys' s₁ s')
    (hagain : ∀ key ∈ keys, key ∈ keys' → s.ReadableAt key) :
    CutAt doc (keys ++ keys') s s' := by
  refine ⟨fun key => ?_, h'.rest.trans (h.rest.withEntries _)⟩
  rw [h'.slots, h.slots]
  by_cases hkey : key ∈ keys <;> by_cases hkey' : key ∈ keys'
  -- A key of both lists: the second cut finds no block of the document any more.
  · rw [if_pos hkey', if_pos hkey, if_pos (List.mem_append_left _ hkey), Option.map_map]
    cases hslot : s.entries.get? key with
    | none => rfl
    | some slot =>
      have hread := hagain key hkey hkey' slot.data (value?_of_get? hslot)
      have hcut := Block.cut_cut doc hread
      simp only [Option.map_some, Function.comp_apply, Slot.cut, hcut]
  · rw [if_neg hkey', if_pos hkey, if_pos (List.mem_append_left _ hkey)]
  · rw [if_pos hkey', if_neg hkey, if_pos (List.mem_append_right _ hkey')]
  · have hneither : key ∉ keys ++ keys' := by
      rw [List.mem_append, not_or]
      exact ⟨hkey, hkey'⟩
    rw [if_neg hkey', if_neg hkey, if_neg hneither]

/-- Only which keys they are matters. -/
theorem congr (h : CutAt doc keys s s') (hiff : ∀ key, key ∈ keys ↔ key ∈ keys') :
    CutAt doc keys' s s' := by
  refine ⟨fun key => ?_, h.rest⟩
  rw [h.slots]
  by_cases hkey : key ∈ keys
  · rw [if_pos hkey, if_pos ((hiff key).mp hkey)]
  · rw [if_neg hkey, if_neg fun hkey' => hkey ((hiff key).mpr hkey')]

end CutAt

end Store

namespace Index

variable {document : Document} {doc : DocId} {stop : Nat → Bool} {kinds : List NameKind}
  {key : Bytes} {keys keys' waiting : List Bytes} {d d₁ d' : Dropped} {s s₁ s' : Store}
  {e : Error}

/-- The value has a block of the document. -/
def hasBlockOf (doc : DocId) (value? : Option Bytes) : Bool :=
  (blocksOf value?).any (·.doc == doc)

/-- The number of these keys whose values have a block of the document. -/
def countWith (s : Store) (doc : DocId) (keys : List Bytes) : Nat :=
  keys.countP fun key => hasBlockOf doc (s.value? key)

/-- A key with a block of the document is counted. -/
theorem countWith_cons_of_block {doc : DocId} (h : hasBlockOf doc (s.value? key) = true) :
    countWith s doc (key :: keys) = countWith s doc keys + 1 := List.countP_cons_of_pos h

/-- A key without a block of the document is not counted. -/
theorem countWith_cons_of_no_block {doc : DocId} (h : hasBlockOf doc (s.value? key) = false) :
    countWith s doc (key :: keys) = countWith s doc keys :=
  List.countP_cons_of_neg (by rw [h]; exact Bool.false_ne_true)

/-- Keys are counted list by list. -/
theorem countWith_append (s : Store) (doc : DocId) (keys keys' : List Bytes) :
    countWith s doc (keys ++ keys') = countWith s doc keys + countWith s doc keys' :=
  List.countP_append

/-- Keys without a block of the document stay as they are. -/
theorem eq_self_of_cutAt (h : Store.CutAt doc keys s s') (hs : s.Calm)
    (hread : ∀ key ∈ keys, s.ReadableAt key) (hcount : countWith s doc keys = 0) : s' = s := by
  -- No value has a block of the document, so every cut value is the value itself.
  have hentries : s'.entries = s.entries := SortedMap.ext_get? fun key => by
    rw [h.slots]
    split
    · next hkey =>
      cases hslot : s.entries.get? key with
      | none => rfl
      | some slot =>
        have hvalue : s.value? key = some slot.data := Store.value?_of_get? hslot
        have hblock := List.countP_eq_zero.mp hcount key hkey
        rw [hvalue, Bool.not_eq_true] at hblock
        rw [Option.map_some, Slot.cut, Block.cut_eq_self (hread key hkey _ hvalue) hblock]
    · rfl
  have hplanned : s'.planned = s.planned := funext fun call => by rw [h.calm hs, hs]
  rw [h.rest.eq, hentries, hplanned]

/-- The count depends on nothing but the values under these keys. -/
theorem countWith_congr (doc : DocId) (h : ∀ key ∈ keys, s'.value? key = s.value? key) :
    countWith s' doc keys = countWith s doc keys :=
  List.countP_congr fun key hkey => by rw [h key hkey]

/-! ## Ends of a walk -/

/-- Why a document is not cut out of a value. -/
inductive Refuses (doc : DocId) (s : Store) (key : Bytes) : Error → Prop
  | unreadable {value : Bytes} {e : Error} (stored : s.value? key = some value)
      (fault : (Block.scan value).fault? = some e) : Refuses doc s key e
  | readOnly (found : hasBlockOf doc (s.value? key) = true) (readOnly : s.readOnly = true) :
      Refuses doc s key (.storeReadOnly .update s.name)
  | planned {call : StoreCall} (planned : ¬ s.Calm) : Refuses doc s key (.injected call.name)

/-- Why a walk that has come so far ends in front of the keys that wait. -/
inductive Halts (document : Document) (stop : Nat → Bool) (s : Store) (d : Dropped) :
    List Bytes → Error → Prop
  | stopped {key : Bytes} {waiting : List Bytes} (told : stop d.asked = true) :
      Halts document stop s d (key :: waiting) (.removalStopped document.uri d.written)
  | refused {key : Bytes} {waiting : List Bytes} {e : Error} (goesOn : stop d.asked = false)
      (cause : Refuses document.id s key e) : Halts document stop s d (key :: waiting) e
  | unlisted {waiting : List Bytes} {call : StoreCall} (planned : ¬ s.Calm) :
      Halts document stop s d waiting (.injected call.name)

/-- From `s` to `s'` the document is cut out of the values under these keys, without a word to
stop.  The values with a block of it are written and counted. -/
structure Strips (document : Document) (stop : Nat → Bool) (keys : List Bytes) (d : Dropped)
    (s : Store) (d' : Dropped) (s' : Store) : Prop where
  goesOn : ∀ n < keys.length, stop (d.asked + n) = false
  readable : ∀ key ∈ keys, s.ReadableAt key
  writable : countWith s document.id keys ≠ 0 → s.readOnly = false
  cut : Store.CutAt document.id keys s s'
  tally : d' = ⟨d.asked + keys.length, d.written + countWith s document.id keys⟩

/-- A walk through these keys strips all of them, or those in front of one where it halts. -/
inductive DropWalk (document : Document) (stop : Nat → Bool) (keys : List Bytes) (d : Dropped)
    (s : Store) : EStateM.Result Error Store Dropped → Prop
  | completed {d' : Dropped} {s' : Store} (stripped : Strips document stop keys d s d' s') :
      DropWalk document stop keys d s (.ok d' s')
  | halted {done waiting : List Bytes} {d' : Dropped} {s' : Store} {e : Error}
      (split : keys = done ++ waiting) (stripped : Strips document stop done d s d' s')
      (cause : Halts document stop s d' waiting e) : DropWalk document stop keys d s (.error e s')

/-! ## Walks one after the other -/

/-- A refusal after some keys were cut would have been one before, at any other key. -/
theorem Refuses.of_cutAt (h : Refuses doc s₁ key e) (hcut : Store.CutAt doc keys s s₁)
    (hkey : key ∉ keys) : Refuses doc s key e := by
  -- The key has not been come to, so its value is the same.
  have hvalue := hcut.value?_of_not_mem hkey
  cases h with
  | unreadable stored fault => exact .unreadable (hvalue ▸ stored) fault
  | readOnly found readOnly =>
    rw [hcut.name]
    exact .readOnly (hvalue ▸ found) (hcut.readOnly ▸ readOnly)
  | planned planned => exact .planned (mt hcut.calm planned)

/-- A reason to halt after some keys were cut was there before, if other keys wait. -/
theorem Halts.of_cutAt (h : Halts document stop s₁ d waiting e)
    (hcut : Store.CutAt document.id keys s s₁) (hkeys : keys.Disjoint waiting) :
    Halts document stop s d waiting e := by
  cases h with
  | stopped told => exact .stopped told
  | refused goesOn cause =>
    exact .refused goesOn (cause.of_cutAt hcut fun hkey => hkeys hkey (.head _))
  | unlisted planned => exact .unlisted (mt hcut.calm planned)

/-- A walk halts in front of more keys as in front of those that waited. -/
theorem Halts.append (h : Halts document stop s d waiting e) (more : List Bytes) :
    Halts document stop s d (waiting ++ more) e := by
  cases h with
  | stopped told => exact .stopped told
  | refused goesOn cause => exact .refused goesOn cause
  | unlisted planned => exact .unlisted planned

namespace Strips

/-- Through no keys at all a walk has stripped nothing. -/
theorem of_sameUpToPlan (h : s'.SameUpToPlan s) (d : Dropped) :
    Strips document stop [] d s d s' :=
  ⟨fun _ h => absurd h (Nat.not_lt_zero _), fun _ h => absurd h List.not_mem_nil,
    fun h => absurd rfl h, .of_sameUpToPlan h, rfl⟩

/-- What is stripped first has no influence on other keys. -/
theorem append (h : Strips document stop keys d s d₁ s₁)
    (h' : Strips document stop keys' d₁ s₁ d' s') (hkeys : keys.Disjoint keys') :
    Strips document stop (keys ++ keys') d s d' s' := by
  -- The second walk finds under its keys what the first one found there.
  have hvalues : ∀ key ∈ keys', s₁.value? key = s.value? key :=
    fun key hkey' => h.cut.value?_of_not_mem fun hkey => hkeys hkey hkey'
  have hcount := countWith_congr document.id hvalues
  obtain ⟨goesOn, readable, writable, cut, rfl⟩ := h
  obtain ⟨goesOn', readable', writable', cut', rfl⟩ := h'
  refine ⟨fun n hn => ?_, fun key hkey => ?_, fun hne => ?_,
    cut.append cut' fun key hkey hkey' => (hkeys hkey hkey').elim, ?_⟩
  -- The word to stop is asked for once a key, so the second walk goes on in the count.
  · rw [List.length_append] at hn
    by_cases hfirst : n < keys.length
    · exact goesOn n hfirst
    · have hrest := goesOn' (n - keys.length) (by omega)
      rwa [Nat.add_assoc, Nat.add_sub_cancel' (Nat.le_of_not_lt hfirst)] at hrest
  · rcases List.mem_append.mp hkey with hkey | hkey
    · exact readable key hkey
    · have hread := readable' key hkey
      rwa [Store.ReadableAt, hvalues key hkey] at hread
  -- If a key of the second walk has to be written, the store could be written all along.
  · rw [countWith_append] at hne
    by_cases hfirst : countWith s document.id keys = 0
    · exact cut.readOnly.symm.trans (writable' (by omega))
    · exact writable hfirst
  · rw [hcount, List.length_append, countWith_append]
    simp only [Nat.add_assoc]

/-- A walk from the beginning has asked once a key and written the values with a block. -/
theorem tally_of_start (h : Strips document stop keys {} s d' s') :
    d' = ⟨keys.length, countWith s document.id keys⟩ := by
  rw [h.tally, Nat.zero_add, Nat.zero_add]

end Strips

/-- A walk goes on where another one ended. -/
theorem DropWalk.append {r : EStateM.Result Error Store Dropped}
    (h : Strips document stop keys d s d₁ s₁) (h' : DropWalk document stop keys' d₁ s₁ r)
    (hkeys : keys.Disjoint keys') : DropWalk document stop (keys ++ keys') d s r := by
  cases h' with
  | completed stripped => exact .completed (h.append stripped hkeys)
  | halted split stripped cause =>
    -- The second walk stopped at a key of its own, and the keys of the first are done.
    subst split
    rw [List.disjoint_append_right] at hkeys
    exact .halted (List.append_assoc ..).symm (h.append stripped hkeys.1)
      (cause.of_cutAt h.cut hkeys.2)

/-! ## One key -/

/-- A key that does not fail is stripped. -/
theorem dropFromKey_strips (hstop : stop d.asked = false)
    (h : dropFromKey document key { d with asked := d.asked + 1 } s = .ok d' s') :
    Strips document stop [key] d s d' s' := by
  -- The only question for a word to stop is the one that was asked before the key.
  have goesOn : ∀ n < [key].length, stop (d.asked + n) = false := fun n hn => by
    rw [List.length_singleton] at hn
    obtain rfl : n = 0 := by omega
    exact hstop
  obtain ⟨slot?, s₁, hget, hrest⟩ := Action.bind_eq_ok_iff.mp h
  obtain ⟨rfl, hsame⟩ := Store.get_eq_ok hget
  cases hslot : s.entries.get? key with
  | none =>
    -- Without a value there is nothing to cut and nothing to count.
    have hvalue := Store.value?_of_get?_eq_none hslot
    have hcount : countWith s document.id [key] = 0 := by
      rw [countWith_cons_of_no_block (by rw [hvalue]; rfl)]
      rfl
    simp only [hslot] at hrest
    obtain ⟨rfl, rfl⟩ := EStateM.Result.ok.inj hrest
    refine ⟨goesOn, List.forall_mem_singleton.mpr fun value hv => ?_,
      fun hne => absurd hcount hne, .of_unchanged hsame (by rw [hslot]; rfl), by rw [hcount]; rfl⟩
    rw [hvalue] at hv
    cases hv
  | some slot =>
    have hvalue : s.value? key = some slot.data := Store.value?_of_get? hslot
    simp only [hslot] at hrest
    obtain ⟨⟨others, found⟩, s₂, hwithout, hwrite⟩ := Action.bind_eq_ok_iff.mp hrest
    obtain ⟨hpair, rfl⟩ := Action.ofExcept_eq_ok_iff.mp hwithout
    -- The value was read to its end, so it has no fault.
    have hfault := (Framing.fold_eq_ok_iff.mp hpair).1
    have hscan : Block.scan slot.data = ⟨(Block.scan slot.data).blocks, none⟩ := by rw [← hfault]
    rw [hscan, Framing.without_eq] at hpair
    obtain ⟨rfl, hfound⟩ := Prod.mk.inj (Except.ok.inj hpair)
    have hblock : hasBlockOf document.id (s.value? key) = found := by
      rw [hvalue]
      exact hfound
    have readable : ∀ key' ∈ [key], s.ReadableAt key' :=
      List.forall_mem_singleton.mpr fun value hv => by
        obtain rfl := Option.some.inj (hvalue.symm.trans hv)
        exact hfault
    -- The value is only written if it had a block of the document.
    cases found with
    | true =>
      have hcount : countWith s document.id [key] = 1 := countWith_cons_of_block hblock
      obtain ⟨_, s₃, hupdate, hdone⟩ := Action.bind_eq_ok_iff.mp hwrite
      obtain ⟨rfl, rfl⟩ := EStateM.Result.ok.inj hdone
      obtain ⟨hupdated, hwritable⟩ := Store.update_eq_ok hupdate
      refine ⟨goesOn, readable, fun _ => hsame.readOnly.symm.trans hwritable,
        .of_updated hslot (hupdated.trans ?_), by rw [hcount]; rfl⟩
      exact hsame.updated slot.address key _
    | false =>
      have hcount : countWith s document.id [key] = 0 := countWith_cons_of_no_block hblock
      obtain ⟨rfl, rfl⟩ := EStateM.Result.ok.inj hwrite
      refine ⟨goesOn, readable, fun hne => absurd hcount hne, .of_unchanged hsame ?_,
        by rw [hcount]; rfl⟩
      rw [hslot, Option.map_some, Slot.cut, Block.cut_eq_self hfault hfound]

/-- A key that fails is left as it was, for one of the known reasons. -/
theorem dropFromKey_refused (h : dropFromKey document key d s = .error e s') :
    s'.SameUpToPlan s ∧ Refuses document.id s key e := by
  rcases Action.bind_eq_error_iff.mp h with hget | ⟨slot?, s₁, hget, hrest⟩
  -- The look-up of the value fails by plan only.
  · obtain ⟨hsame, hcalm⟩ := Store.get_eq_error hget
    exact ⟨hsame, Store.get_cause hget ▸ .planned hcalm⟩
  obtain ⟨rfl, hsame⟩ := Store.get_eq_ok hget
  cases hslot : s.entries.get? key with
  | none =>
    simp only [hslot] at hrest
    cases hrest
  | some slot =>
    have hvalue : s.value? key = some slot.data := Store.value?_of_get? hslot
    simp only [hslot] at hrest
    rcases Action.bind_eq_error_iff.mp hrest with hwithout | ⟨⟨others, found⟩, s₂, hwithout, hwrite⟩
    -- A value with a fault is not gone on with.
    · obtain ⟨hfault, rfl⟩ := Action.ofExcept_eq_error_iff.mp hwithout
      exact ⟨hsame, .unreadable hvalue (Framing.fault?_of_without_eq_error hfault)⟩
    obtain ⟨hpair, rfl⟩ := Action.ofExcept_eq_ok_iff.mp hwithout
    have hfault := (Framing.fold_eq_ok_iff.mp hpair).1
    have hscan : Block.scan slot.data = ⟨(Block.scan slot.data).blocks, none⟩ := by rw [← hfault]
    rw [hscan, Framing.without_eq] at hpair
    have hfound := (Prod.mk.inj (Except.ok.inj hpair)).2
    cases found with
    | false => cases hwrite
    | true =>
      rcases Action.bind_eq_error_iff.mp hwrite with hupdate | ⟨_, _, _, hdone⟩
      · have hslot' : s₂.entries.get? key = some slot := by rw [hsame.entries, hslot]
        obtain ⟨hsame', hcause⟩ := Store.update_refused hslot' hupdate
        refine ⟨hsame'.trans hsame, ?_⟩
        -- The value was to be written, which was planned to fail or is not allowed.
        rcases hcause with ⟨hcalm, rfl⟩ | ⟨hreadOnly, rfl⟩
        · exact .planned (mt hsame.calm hcalm)
        · rw [hsame.name]
          exact .readOnly (by rw [hvalue]; exact hfound) (hsame.readOnly.symm.trans hreadOnly)
      · cases hdone

/-! ## All keys -/

/-- A walk through different keys. -/
theorem walk_dropFromKeys (hkeys : keys.Nodup) (d : Dropped) (s : Store) :
    DropWalk document stop keys d s (dropFromKeys document stop keys d s) := by
  -- Induction on the keys that wait, over any store and any count so far.
  induction keys generalizing d s with
  | nil => exact .completed (.of_sameUpToPlan (.refl s) d)
  | cons key keys ih =>
    obtain ⟨hkey, hkeys⟩ := List.nodup_cons.mp hkeys
    rw [dropFromKeys]
    cases hstop : stop d.asked with
    | true => exact .halted (List.nil_append _).symm (.of_sameUpToPlan (.refl s) d) (.stopped hstop)
    | false =>
      show DropWalk _ _ _ _ _ ((dropFromKey document key { d with asked := d.asked + 1 } >>= _) s)
      cases hfirst : dropFromKey document key { d with asked := d.asked + 1 } s with
      | error e s₁ =>
        obtain ⟨hsame, hcause⟩ := dropFromKey_refused hfirst
        rw [Action.bind_of_error hfirst]
        exact .halted (List.nil_append _).symm (.of_sameUpToPlan hsame d) (.refused hstop hcause)
      | ok d₁ s₁ =>
        rw [Action.bind_of_ok hfirst]
        exact .append (dropFromKey_strips hstop hfirst) (ih hkeys d₁ s₁)
          (List.singleton_disjoint.mpr hkey)

/-- A walk through the keys of different families.  Those of a family are looked up when its turn
comes, which makes no difference. -/
theorem walk_dropFromKinds (document : Document) (stop : Nat → Bool) (hkinds : kinds.Nodup)
    (d : Dropped) (s : Store) :
    DropWalk document stop (s.keysIn document.collection kinds) d s
      (dropFromKinds document stop kinds d s) := by
  -- Induction on the families; the keys of the later ones are not affected by the first.
  induction kinds generalizing d s with
  | nil => exact .completed (.of_sameUpToPlan (.refl s) d)
  | cons kind kinds ih =>
    have hnodup := s.nodup_keysIn document.collection hkinds
    obtain ⟨_, hkinds⟩ := List.nodup_cons.mp hkinds
    rw [dropFromKinds]
    cases hfind : Store.findKeys (rangeOf kind document.collection) s with
    | error e s₁ =>
      obtain ⟨hsame, hcalm⟩ := Store.findKeys_eq_error hfind
      rw [Action.bind_of_error hfind, Store.findKeys_cause hfind]
      exact .halted (List.nil_append _).symm (.of_sameUpToPlan hsame d) (.unlisted hcalm)
    | ok keys s₁ =>
      obtain ⟨hkeys, hsame⟩ := Store.findKeys_eq_ok hfind
      have hlist : s.keysIn document.collection (kind :: kinds) =
          keys ++ s.keysIn document.collection kinds := by rw [hkeys]; rfl
      rw [hlist] at hnodup ⊢
      obtain ⟨hfirst, _, hdisjoint⟩ := List.nodup_append'.mp hnodup
      rw [Action.bind_of_ok hfind]
      -- What the look-up has used up of the plan makes no difference to the keys.
      have hwalk : DropWalk document stop keys d s (dropFromKeys document stop keys d s₁) :=
        .append (.of_sameUpToPlan hsame d) (walk_dropFromKeys hfirst d s₁)
          (List.disjoint_nil_left _)
      -- The walk ends in this family, or it goes on to the next one.
      cases hrun : dropFromKeys document stop keys d s₁ with
      | error e s₂ =>
        rw [hrun] at hwalk
        rw [Action.bind_of_error hrun]
        cases hwalk with
        | halted split stripped cause =>
          exact .halted (by rw [split, List.append_assoc]) stripped (cause.append _)
      | ok d₁ s₂ =>
        rw [hrun] at hwalk
        rw [Action.bind_of_ok hrun]
        cases hwalk with
        | completed stripped =>
          -- The keys of the other families are those that the store had before this family was
          -- walked through.
          have hsame₂ : s₂.keysIn document.collection kinds = s.keysIn document.collection kinds :=
            Store.keysIn_congr fun key _ => stripped.cut.isSome_value? key
          have hrest := ih hkinds d₁ s₂
          rw [hsame₂] at hrest
          exact .append stripped hrest hdisjoint

/-! ## Dropping a document -/

section Documents

variable {i i' : Index} {count : Nat}

/-- A drop that succeeds strips all keys of the collection. -/
theorem dropDocument_strips (h : dropDocument document stop i = .ok count i') :
    i' = { i with store := i'.store } ∧ ∃ d, count = d.written ∧
      Strips document stop (i.store.keysIn document.collection NameKind.all) {} i.store d
        i'.store := by
  obtain ⟨d, i₁, hstore, hdone⟩ := Action.bind_eq_ok_iff.mp h
  obtain ⟨rfl, rfl⟩ := EStateM.Result.ok.inj hdone
  rw [onStore] at hstore
  obtain ⟨s', hlocked, rfl⟩ := Action.on_eq_ok_iff.mp hstore
  -- The keys of all families are those of the collection, each of them once.
  have hwalk := walk_dropFromKinds document stop
    (show NameKind.all.Nodup by decide) {} i.store
  rw [(Store.locked_eq_ok hlocked).2] at hwalk
  cases hwalk with
  | completed stripped => exact ⟨rfl, d, rfl, stripped⟩

/-- A drop that fails did not get the lock, or strips the keys in front of one where it halts. -/
theorem dropDocument_halts (h : dropDocument document stop i = .error e i') :
    i' = { i with store := i'.store } ∧
      ((i.store.isFree .write = false ∧ i'.store = i.store ∧
          e = .lockUnavailable .write i.store.name i.store.timeout.toText) ∨
        ∃ done waiting d,
          i.store.keysIn document.collection NameKind.all = done ++ waiting ∧
          Strips document stop done {} i.store d i'.store ∧
          Halts document stop i.store d waiting e) := by
  rcases Action.bind_eq_error_iff.mp h with hstore | ⟨_, _, _, hdone⟩
  · rw [onStore] at hstore
    obtain ⟨s', hlocked, rfl⟩ := Action.on_eq_error_iff.mp hstore
    refine ⟨rfl, ?_⟩
    cases hfree : i.store.isFree .write with
    | false =>
      rw [Store.locked_of_not_isFree hfree] at hlocked
      obtain ⟨rfl, rfl⟩ := EStateM.Result.error.inj hlocked
      exact .inl ⟨rfl, rfl, rfl⟩
    | true =>
      rw [Store.locked_of_isFree hfree] at hlocked
      have hwalk := walk_dropFromKinds document stop
        (show NameKind.all.Nodup by decide) {} i.store
      rw [hlocked] at hwalk
      cases hwalk with
      | halted split stripped cause => exact .inr ⟨_, _, _, split, stripped, cause⟩
  -- What comes behind the walk does not fail.
  · cases hdone

/-- Where no call is planned to fail, the store can be written and all values can be read, nothing
but a word to stop ends a walk early. -/
theorem Halts.told (h : Halts document stop s d waiting e) (ho : s.Open)
    (hread : ∀ key ∈ waiting, s.ReadableAt key) :
    stop d.asked = true ∧ e = .removalStopped document.uri d.written := by
  -- Every other cause of an early end is excluded by one of the assumptions.
  cases h with
  | stopped told => exact ⟨told, rfl⟩
  | refused goesOn cause =>
    cases cause with
    | unreadable stored fault =>
      rw [hread _ (.head _) _ stored] at fault
      cases fault
    | readOnly found readOnly =>
      rw [ho.writable] at readOnly
      cases readOnly
    | planned planned => exact absurd ho.calm planned
  | unlisted planned => exact absurd ho.calm planned

end Documents

end Index

end XmlIndex
