import XmlIndex.Proofs.DropWalks
import XmlIndex.Proofs.StoreRuns

/-! # Calls on ranges of keys

A call on a range goes through the stored keys from the lower bound on, up to the first one where
the range ends.  What it works on is nevertheless what `KeyRange.matches?` picks out of all stored
keys: these stand together in the order of the keys, and none of them is below the bound
(`KeyRange.scan_eq_filter`).

`Store.Selects` says which keys these are, without a scan; there is one such list
(`Selects.eq_select`).  All three calls come down to it: `findKeys` answers it, `findEntries`
answers it with the values, and `removeAll` removes it and nothing else
(`Store.range_calls_filter`). -/

namespace XmlIndex

namespace Store

variable {s : Store} {range : KeyRange} {held : LockMode} {keys : List Bytes}

/-- The list has the stored keys that the range selects, each once and ascending. -/
structure Selects (s : Store) (range : KeyRange) (keys : List Bytes) : Prop where
  mem_iff : ∀ key, key ∈ keys ↔ range.matches? key ∧ ∃ slot, s.entries.get? key = some slot
  ascending : keys.Pairwise fun a b => compare a b = .lt

theorem selects_select (s : Store) (range : KeyRange) : s.Selects range (s.select range) where
  mem_iff key := by rw [select, mem_scan, Option.isSome_iff_exists]
  ascending := s.ascending_select range

/-- There is one list of the selected keys. -/
theorem Selects.eq_select (h : s.Selects range keys) : keys = s.select range := by
  refine SortedMap.eq_of_perm_of_ascending id ?_ h.ascending (s.ascending_select range)
  have hnodup := SortedMap.nodup_of_ascending h.ascending
  refine (List.perm_ext_iff_of_nodup hnodup (s.nodup_select range)).mpr fun key => ?_
  rw [h.mem_iff, (s.selects_select range).mem_iff]

/-- A range whose lower bound is not below the upper one selects nothing. -/
theorem select_of_bounds_le {low high : Bytes} (h : (compare high low).isLE) :
    s.select (.between low high) = [] := by
  refine List.eq_nil_iff_forall_not_mem.mpr fun key hkey => ?_
  obtain ⟨hmatches, _⟩ := ((s.selects_select _).mem_iff key).mp hkey
  obtain ⟨hlow, hhigh⟩ := Bool.and_eq_true_iff.mp hmatches
  rw [Ordering.isLT_iff_eq_lt] at hhigh
  -- The key would lie below the lower bound.
  have hbelow := Std.TransCmp.lt_of_lt_of_isLE hhigh h
  rw [Std.OrientedOrd.eq_swap, hbelow] at hlow
  cases hlow

/-! ## The calls -/

theorem exists_findKeys (h : s.planned .findKeys ≠ 1) (range : KeyRange) :
    ∃ t, findKeys range s = .ok (s.select range) t ∧ t.SameUpToPlan s := by
  obtain ⟨t, he, hsame⟩ := exists_enter h
  refine ⟨t, Action.bind_eq_ok_iff.mpr ⟨(), t, he, ?_⟩, hsame⟩
  rw [select, ← hsame.entries]
  rfl

/-- The pairs found in a range are its keys with their values. -/
theorem map_filter_contents (s : Store) (range : KeyRange) :
    (s.contents.filter fun p => range.matches? p.1).map (·.1) = s.select range := by
  rw [← scan_eq_filter_contents, List.map_map, select]
  rfl

/-- On every store and for every range, calls on the range do what a filter of all keys would do.
`findKeys` answers the stored keys that match, each once and ascending; `findEntries` answers
these keys, each with the value that `get` answers; `removeAll` removes just these keys and
answers their number, and every other key keeps its value and address.  Where a removal is not
permitted it fails, and nothing is removed. -/
theorem range_calls_filter (s : Store) (range : KeyRange) :
    (s.planned .findKeys ≠ 1 → ∃ keys t, findKeys range s = .ok keys t ∧ t.SameUpToPlan s ∧
      s.Selects range keys) ∧
    (s.planned .findEntries ≠ 1 → ∃ pairs t, findEntries range s = .ok pairs t ∧
      t.SameUpToPlan s ∧ s.Selects range (pairs.map (·.1)) ∧
      (s.planned .get ≠ 1 → ∀ key value, (key, value) ∈ pairs →
        ∃ slot t', get key s = .ok (some slot) t' ∧ slot.data = value)) ∧
    (∀ held, s.Permits .removeAll held → ∃ keys t,
      removeAll held range s = .ok keys.length t ∧ s.Selects range keys ∧
      (∀ key, t.entries.get? key =
        if range.matches? key then none else s.entries.get? key) ∧
      t.size + keys.length = s.size ∧ t.SameUpToPlan { s with entries := t.entries }) ∧
    (∀ held, ¬ s.Permits .removeAll held →
      ∃ e t, removeAll held range s = .error e t ∧ t.SameUpToPlan s) := by
  have hselects := s.selects_select range
  refine ⟨fun hplanned => ?_, fun hplanned => ?_, fun held hpermits => ?_, fun held hnot => ?_⟩
  · obtain ⟨t, hfind, hsame⟩ := exists_findKeys hplanned range
    exact ⟨_, t, hfind, hsame, hselects⟩
  · obtain ⟨t, hfind, hsame⟩ := exists_findEntries hplanned range
    refine ⟨_, t, hfind, hsame, by rwa [map_filter_contents], fun hget key value hmem => ?_⟩
    -- What stands in the contents is what `get` finds.
    have hvalue := mem_contents_iff.mp (List.mem_filter.mp hmem).1
    obtain ⟨slot, hslot, hdata⟩ := Option.map_eq_some_iff.mp hvalue
    obtain ⟨t', hrun, -⟩ := exists_get hget key
    exact ⟨slot, t', by rw [hrun, hslot], hdata⟩
  · rcases s.removeAll_cases held range with ⟨-, t, hrun, hsame⟩ | ⟨hnot, -⟩
    · have hcount : (range.scan s.entries.entries).length = (s.select range).length :=
        (List.length_map _).symm
      rw [hcount] at hrun
      refine ⟨_, t, hrun, hselects, fun key => ?_, ?_, ?_⟩
      · rw [hsame.entries, get?_without]
      -- What is left and what was selected make up the store.
      · rw [← s.size_without range, size, hsame.entries, size]
      · rw [hsame.entries]
        exact hsame
    · exact absurd hpermits hnot
  · rcases s.removeAll_cases held range with ⟨hpermits, -⟩ | ⟨-, e, t, hrun, hsame⟩
    · exact absurd hpermits hnot
    · exact ⟨e, t, hrun, hsame⟩

/-- A store with keys that begin with one another. -/
def nestedKeys : Store :=
  [[], [0], [0, 1], [0, 1, 7], [0, 2], [1]].foldl (fun s key => s.place key [9])
    { name := "x", timeout := ⟨0⟩ }

/-- Of the keys that begin with one another a range takes those that begin with `[0, 1]`: they are
found, and one after the other call they are gone, while the key in front of them is not. -/
theorem range_calls_nestedKeys :
    nestedKeys.Selects (.startingWith [0, 1]) [[0, 1], [0, 1, 7]] ∧
      ∃ t, removeAll .write (.startingWith [0, 1]) nestedKeys = .ok 2 t ∧
        t.value? [0] = some [9] ∧ t.value? [0, 1, 7] = none := by
  obtain ⟨hkeys, -, hremove, -⟩ := range_calls_filter nestedKeys (.startingWith [0, 1])
  obtain ⟨keys, t, hfind, -, hselects⟩ := hkeys (by decide)
  have hrun : findKeys (.startingWith [0, 1]) nestedKeys =
      .ok [[0, 1], [0, 1, 7]] nestedKeys := rfl
  obtain ⟨rfl, -⟩ := EStateM.Result.ok.inj (hfind.symm.trans hrun)
  obtain ⟨keys', t', hremoved, hselects', hslots, -⟩ := hremove .write ⟨by decide, rfl, rfl⟩
  -- Removed are the keys that were found before.
  obtain rfl := hselects'.eq_select.trans hselects.eq_select.symm
  refine ⟨hselects, t', hremoved, ?_, ?_⟩
  · rw [value?, hslots]
    rfl
  · rw [value?, hslots]
    rfl

end Store

end XmlIndex
