import Std.Data.HashMap
import XmlIndex.Action

/-! # Symbol tables

Local names and namespaces are replaced by 16-bit codes in the keys of the index.  A code is
given on first use, from 1 upwards, and never taken back; code 0 stands for the empty
namespace and for no local name.

An `Interner` gives codes to texts.  That codes and texts determine each other is part of its
type (`codes_iff`): the code of a text is one more than its place in the list of texts. -/

namespace XmlIndex

/-- Texts with codes from 1 upwards. -/
structure Interner where
  codes : Std.HashMap String UInt16
  texts : Array String
  size_lt : texts.size < UInt16.size
  codes_iff : ∀ s c, codes[s]? = some c ↔ 0 < c.toNat ∧ texts[c.toNat - 1]? = some s

namespace Interner

/-- No text has a code. -/
def empty : Interner where
  texts := #[]
  codes := ∅
  size_lt := by decide
  codes_iff := by simp

instance : Inhabited Interner := ⟨empty⟩

/-- The code of a text that has one. -/
def code? (t : Interner) (s : String) : Option UInt16 := t.codes[s]?

/-- The text of a code that was given. -/
def text? (t : Interner) (c : UInt16) : Option String :=
  if c.toNat = 0 then none else t.texts[c.toNat - 1]?

/-- The table with a code for one more text. -/
def push (t : Interner) (s : String) (new : t.code? s = none)
    (room : t.texts.size + 1 < UInt16.size) :
    Interner where
  texts := t.texts.push s
  codes := t.codes.insert s (UInt16.ofNat (t.texts.size + 1))
  size_lt := by simpa using room
  codes_iff := by
    intro s' c
    have hc : (UInt16.ofNat (t.texts.size + 1)).toNat = t.texts.size + 1 := by
      rw [UInt16.toNat_ofNat']
      exact Nat.mod_eq_of_lt room
    rw [Std.HashMap.getElem?_insert, Array.getElem?_push]
    -- The new text stands behind the others, under a code that none of them has.
    by_cases hs : s = s'
    · subst hs
      simp only [beq_self_eq_true, if_true, Option.some.injEq]
      constructor
      · rintro rfl
        rw [hc]
        exact ⟨by omega, by simp⟩
      · rintro ⟨hpos, h⟩
        split at h
        · apply UInt16.toNat_inj.mp
          omega
        · have := (t.codes_iff s c).mpr ⟨hpos, h⟩
          rw [code?, this] at new
          cases new
    · simp only [beq_iff_eq, hs, if_false, t.codes_iff]
      constructor
      · rintro ⟨hpos, h⟩
        have hlt := (Array.getElem?_eq_some_iff.mp h).1
        exact ⟨hpos, by rw [if_neg (by omega), h]⟩
      · rintro ⟨hpos, h⟩
        split at h
        · exact absurd (Option.some.inj h) hs
        · exact ⟨hpos, h⟩

/-- The code of a text, given now if it has none. -/
def intern (s : String) : Action Interner UInt16 := fun t =>
  match h : t.code? s with
  | some c => .ok c t
  | none =>
    -- Codes are words of two bytes, of which zero is not given.
    if room : t.texts.size + 1 < UInt16.size then
      .ok (UInt16.ofNat (t.texts.size + 1)) (t.push s h room)
    else .error .symbolsExhausted t

end Interner

/-- The codes of local names and of namespaces. -/
structure SymbolTable where
  names : Interner := .empty
  namespaces : Interner := .empty

namespace SymbolTable

/-- The table without codes. -/
def empty : SymbolTable := {}

instance : Inhabited SymbolTable := ⟨empty⟩

/-- Runs an action on the codes of local names. -/
def onNames {α : Type} (x : Action Interner α) : Action SymbolTable α
  | ⟨names, namespaces⟩ =>
    match x names with
    | .ok a names => .ok a ⟨names, namespaces⟩
    | .error e names => .error e ⟨names, namespaces⟩

/-- Runs an action on the codes of namespaces. -/
def onNamespaces {α : Type} (x : Action Interner α) : Action SymbolTable α
  | ⟨names, namespaces⟩ =>
    match x namespaces with
    | .ok a namespaces => .ok a ⟨names, namespaces⟩
    | .error e namespaces => .error e ⟨names, namespaces⟩

/-- The code of a local name. -/
def symbol (localName : String) : Action SymbolTable UInt16 :=
  onNames (Interner.intern localName)

/-- The code of a namespace; the empty namespace has code 0. -/
def namespaceSymbol (uri : String) : Action SymbolTable UInt16 :=
  if uri = "" then pure 0 else onNamespaces (Interner.intern uri)

/-- The local name with that code. -/
def name? (t : SymbolTable) (c : UInt16) : Option String := t.names.text? c

/-- The namespace with that code. -/
def namespace? (t : SymbolTable) (c : UInt16) : Option String :=
  if c = 0 then some "" else t.namespaces.text? c

end SymbolTable

end XmlIndex
