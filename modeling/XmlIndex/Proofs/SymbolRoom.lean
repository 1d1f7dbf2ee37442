import XmlIndex.Proofs.KeyFormation

/-! # Room for names

A symbol table has a limited number of codes.  `SymbolTable.HasRoomFor` counts what a list of
names needs of them: a code for each local name and each namespace that has none yet, each
counted once, and none for the names of the third family.  With that room the keys of the names
can be formed one after the other (`Key.exists_ofName`). -/

namespace XmlIndex

namespace Interner

variable {t t' : Interner} {s : String} {c : UInt16} {texts : List String}

/-- The texts that have no code yet, each once. -/
def uncoded (t : Interner) (texts : List String) : List String :=
  (texts.filter fun s => (t.code? s).isNone).eraseDups

/-- There are codes left for all texts that have none yet. -/
def HasRoomFor (t : Interner) (texts : List String) : Prop :=
  t.texts.size + (t.uncoded texts).length < UInt16.size

/-- In the empty table no text has a code. -/
theorem uncoded_empty (texts : List String) : empty.uncoded texts = texts.eraseDups := by
  have hnone : ∀ s ∈ texts, (empty.code? s).isNone = true := by simp [empty, code?]
  rw [uncoded, List.filter_eq_self.mpr hnone]

/-- An empty table has room for as many texts as there are codes. -/
theorem hasRoomFor_empty (h : texts.eraseDups.length < UInt16.size) : empty.HasRoomFor texts := by
  rw [HasRoomFor, uncoded_empty]
  show 0 + _ < _
  omega

/-- A text with a code needs none. -/
theorem uncoded_cons_of_code? (h : t.code? s = some c) :
    t.uncoded (s :: texts) = t.uncoded texts := by
  rw [uncoded, List.filter_cons_of_neg (by simp [h]), uncoded]

/-- A text that gets a code is not counted any more. -/
theorem uncoded_cons_of_push (new : t.code? s = none) (room : t.texts.size + 1 < UInt16.size) :
    t.uncoded (s :: texts) = s :: (t.push s new room).uncoded texts := by
  rw [uncoded, List.filter_cons_of_pos (by simp [new]), List.eraseDups_cons, List.filter_filter,
    uncoded]
  congr 3
  funext s'
  rw [code?_push]
  by_cases hs : s = s'
  · simp [hs]
  · simp [hs, Ne.symm hs]

/-- A new text gets the next code. -/
theorem intern_of_new (new : t.code? s = none) (room : t.texts.size + 1 < UInt16.size) :
    intern s t = .ok (UInt16.ofNat (t.texts.size + 1)) (t.push s new room) := by
  unfold intern
  split
  · next h =>
    rw [new] at h
    cases h
  · rw [dif_pos room]

/-- The first of some texts that there is room for gets a code, and there is room for the
others. -/
theorem exists_intern (h : t.HasRoomFor (s :: texts)) :
    ∃ c t', intern s t = .ok c t' ∧ t'.HasRoomFor texts := by
  rw [HasRoomFor] at h
  cases hs : t.code? s with
  -- It has a code, so nothing is used up.
  | some c =>
    refine ⟨c, t, intern_of_code? hs, ?_⟩
    rwa [uncoded_cons_of_code? hs] at h
  | none =>
    have room : t.texts.size + 1 < UInt16.size := by
      rw [uncoded, List.filter_cons_of_pos (by simp [hs]), List.eraseDups_cons,
        List.length_cons] at h
      omega
    refine ⟨_, t.push s hs room, intern_of_new hs room, ?_⟩
    rw [uncoded_cons_of_push hs room, List.length_cons] at h
    have hsize : (t.push s hs room).texts.size = t.texts.size + 1 := Array.size_push s
    rw [HasRoomFor, hsize]
    omega

end Interner

namespace SymbolTable

variable {t : SymbolTable} {q : QName} {names : List QName}

/-- The names whose keys are made of codes. -/
def coded (names : List QName) : List QName := names.filter (·.kind ≠ .attrId)

/-- There are codes left for the local names and for the namespaces of these names; the empty
namespace needs none. -/
def HasRoomFor (t : SymbolTable) (names : List QName) : Prop :=
  t.names.HasRoomFor ((coded names).map (·.localName)) ∧
    t.namespaces.HasRoomFor (((coded names).map (·.namespaceUri)).filter (· ≠ ""))

/-- A name of the third family needs no codes. -/
theorem coded_cons_of_attrId (h : q.kind = .attrId) : coded (q :: names) = coded names :=
  List.filter_cons_of_neg (by simp [h])

/-- Any other name needs codes. -/
theorem coded_cons_of_ne (h : q.kind ≠ .attrId) :
    coded (q :: names) = q :: coded names :=
  List.filter_cons_of_pos (by simp [h])

/-- The first local name that there is room for gets a code, and there is room for the others. -/
theorem exists_symbol {texts : List String} {s : String} (h : t.names.HasRoomFor (s :: texts)) :
    ∃ c t', symbol s t = .ok c t' ∧ t'.names.HasRoomFor texts ∧ t'.namespaces = t.namespaces := by
  obtain ⟨c, names, hintern, hroom⟩ := Interner.exists_intern h
  refine ⟨c, ⟨names, t.namespaces⟩, ?_, hroom, rfl⟩
  rw [symbol, onNames, hintern]

/-- The first namespace that there is room for gets a code, and there is room for the others. -/
theorem exists_namespaceSymbol {uris : List String} {uri : String}
    (h : t.namespaces.HasRoomFor ((uri :: uris).filter (· ≠ ""))) :
    ∃ c t', namespaceSymbol uri t = .ok c t' ∧ t'.names = t.names ∧
      t'.namespaces.HasRoomFor (uris.filter (· ≠ "")) := by
  -- The empty namespace takes no room.
  by_cases he : uri = ""
  · rw [List.filter_cons_of_neg (by simp [he])] at h
    exact ⟨0, t, by rw [namespaceSymbol, if_pos he]; rfl, rfl, h⟩
  · rw [List.filter_cons_of_pos (by simp [he])] at h
    obtain ⟨c, namespaces, hintern, hroom⟩ := Interner.exists_intern h
    refine ⟨c, ⟨t.names, namespaces⟩, ?_, rfl, hroom⟩
    rw [namespaceSymbol, if_neg he, onNamespaces, hintern]

end SymbolTable

/-- The key of the first of some names that there is room for can be formed, and there is room
for the others. -/
theorem Key.exists_ofName {t : SymbolTable} {q : QName} {names : List QName}
    (collection : CollectionId) (h : t.HasRoomFor (q :: names)) :
    ∃ k t', ofName q.kind collection q t = .ok k t' ∧ t'.HasRoomFor names := by
  by_cases hk : q.kind = .attrId
  · rw [SymbolTable.HasRoomFor, SymbolTable.coded_cons_of_attrId hk] at h
    rw [hk]
    exact ⟨verbatim collection q.localName, t, rfl, h⟩
  · rw [SymbolTable.HasRoomFor, SymbolTable.coded_cons_of_ne hk, List.map_cons,
      List.map_cons] at h
    -- The local name gets its code first, and that changes nothing for the namespaces.
    obtain ⟨symbol, t₁, hsymbol, hnames, hsame⟩ := SymbolTable.exists_symbol h.1
    rw [← hsame] at h
    obtain ⟨ns, t₂, hns, hsame', hnamespaces⟩ := SymbolTable.exists_namespaceSymbol h.2
    refine ⟨Key.symbolic q.kind collection symbol ns, t₂, ?_, hsame' ▸ hnames, hnamespaces⟩
    rw [ofName_of_ne_attrId hk]
    refine Action.bind_eq_ok_iff.mpr ⟨symbol, t₁, hsymbol, ?_⟩
    exact Action.bind_eq_ok_iff.mpr ⟨ns, t₂, hns, rfl⟩

end XmlIndex
