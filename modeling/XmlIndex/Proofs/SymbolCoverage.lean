import Mathlib.Data.List.Nodup
import Mathlib.Data.List.Perm.Subperm
import XmlIndex.Proofs.ActionAgreement
import XmlIndex.Proofs.SymbolRoom

/-! # Tables with the same texts

Two symbol tables may have given different codes to the same texts.  One covers another if all
texts that have a code there have one here (`Interner.Covers`).  What is left of the codes
depends on the number of texts only, so a covering table has at most as many codes left, and
tables that have the same texts (`Interner.SameTexts`) have equally many.

A text that gets a code from the covering table therefore gets one from the other
(`Interner.agree_intern_of_covers`), and tables with the same texts both have a code for it or
neither (`Interner.agree_intern_of_sameTexts`).  The same holds for the two codes that make a
key (`Key.agree_ofName`). -/

namespace XmlIndex

open XmlIndex.Action

namespace Interner

variable {t t' : Interner} {s : String}

/-! ## Texts and codes -/

/-- The code of a text is one more than its place. -/
theorem toNat_ofNat_succ {n : Nat} (h : n < t.texts.size) :
    (UInt16.ofNat (n + 1)).toNat = n + 1 := by
  have hsize := t.size_lt
  have hword : UInt16.size = 65536 := rfl
  rw [UInt16.toNat_ofNat']
  omega

/-- A text has the code of its place. -/
theorem code?_of_getElem? {n : Nat} (h : t.texts[n]? = some s) :
    t.code? s = some (UInt16.ofNat (n + 1)) := by
  have hlt := (Array.getElem?_eq_some_iff.mp h).1
  refine (t.codes_iff s _).mpr ?_
  rw [toNat_ofNat_succ hlt]
  exact ⟨by omega, by simpa using h⟩

/-- The texts of a table are those that have a code. -/
theorem mem_texts_iff : s ∈ t.texts.toList ↔ (t.code? s).isSome := by
  rw [Option.isSome_iff_exists, List.mem_iff_getElem?]
  constructor
  · rintro ⟨n, hn⟩
    rw [Array.getElem?_toList] at hn
    exact ⟨_, code?_of_getElem? hn⟩
  · rintro ⟨c, hc⟩
    obtain ⟨_, htext⟩ := (t.codes_iff s c).mp hc
    exact ⟨c.toNat - 1, by rw [Array.getElem?_toList, htext]⟩

/-- No text has two codes. -/
theorem nodup_texts (t : Interner) : t.texts.toList.Nodup := by
  refine List.nodup_iff_getElem?_ne_getElem?.mpr fun n m hnm hm heq => ?_
  rw [Array.length_toList] at hm
  simp only [Array.getElem?_toList] at heq
  -- The text at both places would have both codes.
  have htext : t.texts[m]? = some t.texts[m] := Array.getElem?_eq_getElem hm
  have hcode := code?_of_getElem? (heq.trans htext)
  rw [code?_of_getElem? htext] at hcode
  have htoNat := congrArg UInt16.toNat (Option.some.inj hcode)
  rw [toNat_ofNat_succ hm, toNat_ofNat_succ (t := t) (by omega)] at htoNat
  omega

/-! ## Covering -/

/-- All texts with a code in `t` have one in `t'`. -/
def Covers (t' t : Interner) : Prop := ∀ s, (t.code? s).isSome → (t'.code? s).isSome

/-- The same texts have a code in both. -/
def SameTexts (t t' : Interner) : Prop := t'.Covers t ∧ t.Covers t'

/-- A table that covers another has no fewer texts. -/
theorem Covers.size_le (h : t'.Covers t) : t.texts.size ≤ t'.texts.size := by
  have hsub : t.texts.toList ⊆ t'.texts.toList := fun s hs =>
    mem_texts_iff.mpr (h s (mem_texts_iff.mp hs))
  simpa using (t.nodup_texts.subperm hsub).length_le

/-- A table that covers another and has one text more has used more codes. -/
theorem Covers.size_lt (h : t'.Covers t) (hs : t.code? s = none) (hs' : (t'.code? s).isSome) :
    t.texts.size < t'.texts.size := by
  have hnodup : (s :: t.texts.toList).Nodup := by
    refine List.nodup_cons.mpr ⟨fun hmem => ?_, t.nodup_texts⟩
    rw [mem_texts_iff, hs] at hmem
    cases hmem
  -- The texts of the other and this one are all among its own.
  have hsub : s :: t.texts.toList ⊆ t'.texts.toList := by
    refine List.cons_subset.mpr ⟨mem_texts_iff.mpr hs', fun s hs => ?_⟩
    exact mem_texts_iff.mpr (h s (mem_texts_iff.mp hs))
  have hlength := (hnodup.subperm hsub).length_le
  simp only [List.length_cons, Array.length_toList] at hlength
  omega

/-- A text that is added has a code, and so have those that had one. -/
theorem isSome_code?_push (new : t.code? s = none) (room : t.texts.size + 1 < UInt16.size)
    {s' : String} : ((t.push s new room).code? s').isSome ↔ s = s' ∨ (t.code? s').isSome := by
  rw [code?_push]
  split <;> simp_all

/-- Adding a text covers what was there. -/
theorem covers_push (new : t.code? s = none) (room : t.texts.size + 1 < UInt16.size) :
    (t.push s new room).Covers t := fun _ h => (isSome_code?_push new room).mpr (.inr h)

/-- Covering is transitive. -/
theorem Covers.trans {t'' : Interner} (h' : t''.Covers t') (h : t'.Covers t) : t''.Covers t :=
  fun s hs => h' s (h s hs)

/-- A table that goes on from another covers it. -/
theorem Extends.covers (h : t'.Extends t) : t'.Covers t := fun s hs => by
  obtain ⟨c, hc⟩ := Option.isSome_iff_exists.mp hs
  rw [h s c hc]
  rfl

/-- A text is covered with the others once it has a code. -/
theorem Covers.push_left (h : t'.Covers t) (new : t.code? s = none)
    (room : t.texts.size + 1 < UInt16.size) (hs' : (t'.code? s).isSome) :
    t'.Covers (t.push s new room) := fun s' hcode => by
  rcases (isSome_code?_push new room).mp hcode with rfl | hcode
  · exact hs'
  · exact h s' hcode

/-- A new text is refused where no code is left. -/
theorem intern_of_full (new : t.code? s = none) (full : ¬ t.texts.size + 1 < UInt16.size) :
    intern s t = .error .symbolsExhausted t := by
  unfold intern
  split
  · next h =>
    rw [new] at h
    cases h
  · rw [dif_neg full]

/-- A failure to form a key, if anything, is one for want of a code. -/
def Exhausted (e : Error) : Prop := e = .symbolsExhausted

/-- A text that gets a code from a covering table gets one from the other. -/
theorem agree_intern_of_covers (s : String) (h : t'.Covers t) :
    Agree Exhausted (fun t t' => t'.Covers t) (fun _ _ => True) (intern s t) (intern s t') := by
  have hle := h.size_le
  have hsize := t'.size_lt
  cases hs' : t'.code? s with
  | some c' =>
    rw [intern_of_code? hs']
    cases hs : t.code? s with
    | some c =>
      rw [intern_of_code? hs]
      exact .ok trivial h
    | none =>
      -- The covering table has the text already, so there is room for it here.
      have hlt := h.size_lt hs (by rw [hs']; rfl)
      rw [intern_of_new hs (by omega)]
      exact .ok trivial (h.push_left hs _ (by rw [hs']; rfl))
  | none =>
    have hs : t.code? s = none := by
      rw [← Option.not_isSome_iff_eq_none]
      intro hsome
      have hcovered := h s hsome
      rw [hs'] at hcovered
      cases hcovered
    -- The text is new to both; only the covering table may be full.
    by_cases room : t'.texts.size + 1 < UInt16.size
    · rw [intern_of_new hs' room, intern_of_new hs (by omega)]
      have hcode : ((t'.push s hs' room).code? s).isSome :=
        (isSome_code?_push hs' room).mpr (.inl rfl)
      exact .ok trivial (((covers_push hs' room).trans h).push_left hs _ hcode)
    · rw [intern_of_full hs' room]
      exact .tolerated rfl

/-- Tables with the same texts both have a code for a text, or neither has. -/
theorem agree_intern_of_sameTexts (s : String) (h : SameTexts t t') :
    Agree (fun _ => False) SameTexts (fun _ _ => True) (intern s t) (intern s t') := by
  obtain ⟨h₁, h₂⟩ := h
  have hle := h₁.size_le
  have hle' := h₂.size_le
  cases hs : t.code? s with
  | some c =>
    -- Both have a code for the text, if not the same one.
    obtain ⟨c', hs'⟩ := Option.isSome_iff_exists.mp (h₁ s (by rw [hs]; rfl))
    rw [intern_of_code? hs, intern_of_code? hs']
    exact .ok trivial ⟨h₁, h₂⟩
  | none =>
    have hs' : t'.code? s = none := by
      rw [← Option.not_isSome_iff_eq_none]
      intro hsome
      have hcovered := h₂ s hsome
      rw [hs] at hcovered
      cases hcovered
    -- Both tables have equally many texts, so both have room or neither has.
    by_cases room : t.texts.size + 1 < UInt16.size
    · have room' : t'.texts.size + 1 < UInt16.size := by omega
      rw [intern_of_new hs room, intern_of_new hs' room']
      have hcode : ((t.push s hs room).code? s).isSome :=
        (isSome_code?_push hs room).mpr (.inl rfl)
      have hcode' : ((t'.push s hs' room').code? s).isSome :=
        (isSome_code?_push hs' room').mpr (.inl rfl)
      exact .ok trivial ⟨((covers_push hs' room').trans h₁).push_left hs room hcode',
        ((covers_push hs room).trans h₂).push_left hs' room' hcode⟩
    · rw [intern_of_full hs room, intern_of_full hs' (by omega)]
      exact .error rfl ⟨h₁, h₂⟩

end Interner

/-! ## Keys from two tables -/

namespace SymbolTable

/-- The codes of local names are related, and so are those of namespaces. -/
structure Both (R : Interner → Interner → Prop) (t t' : SymbolTable) : Prop where
  names : R t.names t'.names
  namespaces : R t.namespaces t'.namespaces

variable {R : Interner → Interner → Prop} {tolerated : Error → Prop} {t t' : SymbolTable}

/-- Giving a text a code agrees on related tables. -/
def Agreeing (tolerated : Error → Prop) (R : Interner → Interner → Prop) : Prop :=
  ∀ s t t', R t t' →
    Agree tolerated R (fun _ _ => True) (Interner.intern s t) (Interner.intern s t')

/-- Asking for the code of a local name agrees. -/
theorem agree_symbol (hR : Agreeing tolerated R) (s : String) (h : t.Both R t') :
    Agree tolerated (Both R) (fun _ _ => True) (symbol s t) (symbol s t') := by
  obtain ⟨names, namespaces⟩ := t
  obtain ⟨names', namespaces'⟩ := t'
  have hintern := hR s names names' h.names
  simp only [symbol, onNames]
  generalize Interner.intern s names = r, Interner.intern s names' = r' at hintern
  cases hintern with
  | ok _ states => exact .ok trivial ⟨states, h.namespaces⟩
  | error kinds states => exact .error kinds ⟨states, h.namespaces⟩
  | tolerated cause => exact .tolerated cause

/-- Asking for the code of a namespace agrees. -/
theorem agree_namespaceSymbol (hR : Agreeing tolerated R) (s : String) (h : t.Both R t') :
    Agree tolerated (Both R) (fun _ _ => True) (namespaceSymbol s t) (namespaceSymbol s t') := by
  obtain ⟨names, namespaces⟩ := t
  obtain ⟨names', namespaces'⟩ := t'
  unfold namespaceSymbol
  -- The empty namespace is code 0 in every table.
  split
  · exact .ok trivial h
  · have hintern := hR s namespaces namespaces' h.namespaces
    simp only [onNamespaces]
    generalize Interner.intern s namespaces = r, Interner.intern s namespaces' = r' at hintern
    cases hintern with
    | ok _ states => exact .ok trivial ⟨h.names, states⟩
    | error kinds states => exact .error kinds ⟨h.names, states⟩
    | tolerated cause => exact .tolerated cause

end SymbolTable

/-- Forming the key of a name agrees on tables on which giving codes does. -/
theorem Key.agree_ofName {R : Interner → Interner → Prop} {tolerated : Error → Prop}
    {t t' : SymbolTable} (hR : SymbolTable.Agreeing tolerated R) (kind : NameKind)
    (collection : CollectionId) (q : QName) (h : t.Both R t') :
    Agree tolerated (SymbolTable.Both R) (fun _ _ => True) (ofName kind collection q t)
      (ofName kind collection q t') := by
  -- A key of the third family needs no codes.
  by_cases hk : kind = .attrId
  · subst hk
    exact .ok trivial h
  · rw [ofName_of_ne_attrId hk]
    refine (SymbolTable.agree_symbol hR q.localName h).bind fun _ _ t₁ t₁' _ h₁ => ?_
    refine (SymbolTable.agree_namespaceSymbol hR q.namespaceUri h₁).bind fun _ _ t₂ t₂' _ h₂ => ?_
    exact .ok trivial h₂

end XmlIndex
