import XmlIndex.Proofs.StoreChanges

/-! # Addresses after a change

Addresses are given out in ascending order and none is given out twice, so that the addresses of
a store are distinct and below its counter (`Store.Addressed`).

How the addresses of a store come from those of an earlier one is said by `Store.Follows`: a key
keeps its address unless the value it had is gone, and every address that was not kept is a new
one.  Following composes, so it is shown for placing a value and for erasing keys, of which all
changes are made (`Store.Change.follows_effect`). -/

namespace XmlIndex

namespace Store

variable {r s t : Store} {gone gone' : Bytes → Prop}

/-- The addresses are distinct, and those still to be given out are new. -/
structure Addressed (s : Store) : Prop where
  lt_next : ∀ {key a}, s.address? key = some a → a < s.nextAddress
  distinct : ∀ {key key' a}, s.address? key = some a → s.address? key' = some a → key = key'

/-- Without values there are no addresses. -/
theorem addressed_of_empty (h : s.entries = .empty) : s.Addressed := by
  have hnone : ∀ key, s.address? key = none := fun key => by
    rw [address?, h, SortedMap.get?_empty, Option.map_none]
  refine ⟨fun {key a} hkey => ?_, fun {key key' a} hkey _ => ?_⟩
  · rw [hnone] at hkey
    cases hkey
  · rw [hnone] at hkey
    cases hkey

/-- The store has the addresses of an earlier one, except for the keys whose values are gone; an
address that it has besides was not given out then. -/
structure Follows (t s : Store) (gone : Bytes → Prop) : Prop where
  next_le : s.nextAddress ≤ t.nextAddress
  kept : ∀ {key a}, ¬ gone key → s.address? key = some a → t.address? key = some a
  origin : ∀ {key a}, t.address? key = some a →
    (s.address? key = some a ∧ ¬ gone key) ∨ s.nextAddress ≤ a
  addressed : s.Addressed → t.Addressed

namespace Follows

/-- Which values are gone may be put in other words. -/
theorem congr (h : t.Follows s gone) (hgone : ∀ key, gone key ↔ gone' key) :
    t.Follows s gone' := by
  obtain rfl : gone = gone' := funext fun key => propext (hgone key)
  exact h

/-- What is gone in either step is gone in both. -/
theorem trans (h' : t.Follows s gone') (h : s.Follows r gone) :
    t.Follows r fun key => gone key ∨ gone' key := by
  refine ⟨Nat.le_trans h.next_le h'.next_le, fun {key a} hgone hkey => ?_, fun {key a} hkey => ?_,
    fun hr => h'.addressed (h.addressed hr)⟩
  · rw [not_or] at hgone
    exact h'.kept hgone.2 (h.kept hgone.1 hkey)
  -- An address is old in both steps, or was given out in one of them.
  · rcases h'.origin hkey with ⟨hs, hgone'⟩ | hnew
    · rcases h.origin hs with ⟨hr, hgone⟩ | hnew
      · exact .inl ⟨hr, not_or.mpr ⟨hgone, hgone'⟩⟩
      · exact .inr hnew
    · exact .inr (Nat.le_trans h.next_le hnew)

/-- An address that is gone belongs to no key any more. -/
theorem ne_of_gone (h : t.Follows s gone) (hs : s.Addressed) {key key' : Bytes} {a : Nat}
    (hkey : s.address? key = some a) (hgone : gone key) : t.address? key' ≠ some a := by
  intro hkey'
  rcases h.origin hkey' with ⟨hold, hstays⟩ | hnew
  · obtain rfl := hs.distinct hkey hold
    exact hstays hgone
  · exact absurd (hs.lt_next hkey) (Nat.not_lt.mpr hnew)

/-- An address that is still there belongs to the same key. -/
theorem eq_of_address? (h : t.Follows s gone) (hs : s.Addressed) {key key' : Bytes} {a : Nat}
    (hkey : s.address? key = some a) (hkey' : t.address? key' = some a) : key' = key := by
  rcases h.origin hkey' with ⟨hold, -⟩ | hnew
  · exact hs.distinct hold hkey
  · exact absurd (hs.lt_next hkey) (Nat.not_lt.mpr hnew)

end Follows

/-! ## Erasing and placing -/

/-- Keys are erased, and the others stay where they are. -/
theorem follows_of_erased (hnext : t.nextAddress = s.nextAddress)
    (herased : ∀ key, gone key → t.address? key = none)
    (hothers : ∀ key, ¬ gone key → t.address? key = s.address? key) : t.Follows s gone := by
  -- An address that is still there was there before, under the same key.
  have hsub : ∀ {key a}, t.address? key = some a → s.address? key = some a ∧ ¬ gone key :=
    fun {key a} hkey => by
      have hgone : ¬ gone key := fun h => by
        rw [herased key h] at hkey
        cases hkey
      exact ⟨(hothers key hgone).symm.trans hkey, hgone⟩
  refine ⟨Nat.le_of_eq hnext.symm, fun {key a} hgone hkey => (hothers key hgone).trans hkey,
    fun hkey => .inl (hsub hkey), fun hs => ⟨fun hkey => ?_, fun hkey hkey' => ?_⟩⟩
  · rw [hnext]
    exact hs.lt_next (hsub hkey).1
  · exact hs.distinct (hsub hkey).1 (hsub hkey').1

/-- Where all addresses stay, nothing is gone. -/
theorem follows_of_address?_eq (hnext : t.nextAddress = s.nextAddress)
    (h : ∀ key, t.address? key = s.address? key) : t.Follows s fun _ => False :=
  follows_of_erased hnext (fun _ => False.elim) fun key _ => h key

/-- A store follows itself. -/
theorem Follows.refl (s : Store) : s.Follows s fun _ => False :=
  follows_of_address?_eq rfl fun _ => rfl

/-- A value that is placed has a new address; the one that was there is gone. -/
theorem follows_place (s : Store) (key value : Bytes) {gone : Bytes → Prop}
    (hgone : ∀ key', gone key' → key' = key) (hlive : s.address? key ≠ none → gone key) :
    (s.place key value).Follows s gone := by
  have haddress := address?_place s key value
  -- What stays, where addresses come from, and that they are distinct.
  refine ⟨Nat.le_succ _, fun {key' a} hstays hkey' => ?_, fun {key' a} hkey' => ?_, fun hs => ?_⟩
  -- A key whose address stays is another one, for that of this key ends.
  · have hne : key' ≠ key := fun heq => by
      subst heq
      exact hstays (hlive (by rw [hkey']; exact Option.some_ne_none a))
    rw [haddress, if_neg hne]
    exact hkey'
  · rw [haddress] at hkey'
    split at hkey'
    · exact .inr (Nat.le_of_eq (Option.some.inj hkey'))
    · next hne => exact .inl ⟨hkey', fun h => hne (hgone key' h)⟩
  · refine ⟨fun {key' a} hkey' => ?_, fun {key₁ key₂ a} h₁ h₂ => ?_⟩
    · show a < s.nextAddress + 1
      rw [haddress] at hkey'
      split at hkey'
      · exact (Option.some.inj hkey') ▸ Nat.lt_succ_self _
      · exact Nat.lt_succ_of_lt (hs.lt_next hkey')
    · -- No key had the address that is given out now.
      rw [haddress] at h₁ h₂
      split at h₁ <;> split at h₂
      · next heq₁ heq₂ => exact heq₁.trans heq₂.symm
      · exact absurd (Option.some.inj h₁).symm (Nat.ne_of_lt (hs.lt_next h₂))
      · exact absurd (Option.some.inj h₂).symm (Nat.ne_of_lt (hs.lt_next h₁))
      · exact hs.distinct h₁ h₂

/-- Placing values one by one replaces those under their keys. -/
theorem follows_foldl_place (pairs : List (Bytes × Bytes)) (s : Store) :
    (pairs.foldl (fun s p => s.place p.1 p.2) s).Follows s fun key => key ∈ pairs.map (·.1) := by
  induction pairs generalizing s with
  | nil => exact (Follows.refl s).congr fun key => by simp
  | cons p pairs ih =>
    have hplace : (s.place p.1 p.2).Follows s (· = p.1) :=
      follows_place s p.1 p.2 (fun _ => id) fun _ => rfl
    exact ((ih (s.place p.1 p.2)).trans hplace).congr fun key => by simp

/-- When a store is loaded, everything it held is gone. -/
theorem follows_refill (s : Store) (pairs : List (Bytes × Bytes)) :
    (s.refill pairs).Follows s fun _ => True := by
  have hcleared : ({ s with entries := .empty } : Store).Follows s fun _ => True :=
    follows_of_erased rfl (fun _ _ => rfl) fun _ h => absurd trivial h
  exact ((follows_foldl_place pairs _).trans hcleared).congr fun key => by simp

/-- Every value that is placed takes an address. -/
theorem nextAddress_foldl_place (pairs : List (Bytes × Bytes)) (s : Store) :
    (pairs.foldl (fun s p => s.place p.1 p.2) s).nextAddress = s.nextAddress + pairs.length := by
  induction pairs generalizing s with
  | nil => rfl
  | cons p pairs ih =>
    rw [List.foldl_cons, ih, List.length_cons]
    show s.nextAddress + 1 + pairs.length = _
    omega

/-- Loading pairs takes an address for each. -/
theorem nextAddress_refill (s : Store) (pairs : List (Bytes × Bytes)) :
    (s.refill pairs).nextAddress = s.nextAddress + pairs.length :=
  nextAddress_foldl_place pairs _

/-! ## Changes -/

namespace Change

variable {held : LockMode}

/-- After a change the keys whose values it does not supersede are where they were, and what it
places is at new addresses. -/
theorem follows_effect {c : Change} (h : c.Allowed held s) :
    (c.effect s).Follows s (c.Supersedes ·) := by
  -- Only placing gives out an address; the other changes keep what they do not erase.
  cases c with
  | put key value => exact follows_place s key value (fun _ => Eq.symm) fun _ => rfl
  | update address key value => exact follows_of_address?_eq rfl (address?_updated h.2 value)
  | append key fragment =>
    rcases appended_cases s key fragment with ⟨slot, -, haddress, heq⟩ | ⟨-, hnone, heq⟩
    · simp only [effect, heq]
      exact follows_of_address?_eq rfl (address?_updated haddress _)
    · simp only [effect, heq]
      exact follows_place s key fragment (fun _ => False.elim) fun hlive => hlive hnone
  | remove key =>
    refine follows_of_erased rfl (fun key' (hkey : key = key') => ?_)
      fun key' (hkey : key ≠ key') => ?_
    · simp only [effect, address?, SortedMap.get?_erase_eq, if_pos hkey, Option.map_none]
    · simp only [effect, address?, SortedMap.get?_erase_eq, if_neg hkey]
  | removeAll range =>
    refine follows_of_erased rfl (fun key (hkey : range.matches? key) => ?_)
      fun key (hkey : ¬ range.matches? key) => ?_
    · rw [effect, address?, get?_without, if_pos hkey, Option.map_none]
    · rw [effect, address?, get?_without, if_neg hkey, address?]
  -- A load erases everything, and then places what the file has.
  | load path file =>
    simp only [effect]
    cases hp : loaded? path file with
    | some pairs => exact follows_refill s pairs
    | none =>
      simp only [Allowed, hp] at h
      cases h
  | setReadOnly on => exact follows_of_address?_eq rfl fun _ => rfl

/-- A change gives out no more addresses than it can. -/
theorem nextAddress_effect_le (c : Change) (s : Store) :
    (c.effect s).nextAddress ≤ s.nextAddress + c.allots := by
  cases c with
  | put key value => exact Nat.le_refl _
  | update address key value => exact Nat.le_refl _
  | append key fragment =>
    -- An append gives out an address only where there was no value.
    rcases appended_cases s key fragment with ⟨slot, -, -, heq⟩ | ⟨-, -, heq⟩
    · simp only [effect, heq]
      exact Nat.le_succ _
    · simp only [effect, heq]
      exact Nat.le_refl _
  | remove key => exact Nat.le_refl _
  | removeAll range => exact Nat.le_refl _
  | load path file =>
    simp only [effect, allots]
    cases loaded? path file with
    | some pairs => exact Nat.le_of_eq (nextAddress_refill s pairs)
    | none => exact Nat.le_refl _
  | setReadOnly on => exact Nat.le_refl _

end Change

end Store

end XmlIndex
