import Mathlib.Data.Set.Card
import XmlIndex.Proofs.SymbolCoverage

/-! # What a symbol table has answered

A table is asked for the codes of local names and of namespaces, in any order and any number of
times (`SymbolTable.afterRequests`).  A text has a code then if and only if that code was answered
for it before (`SymbolTable.code?_afterRequests`), apart from the empty namespace, whose code 0 is
no entry of the table.

So the answers given on the way, the codes of the table and the texts it has for them are three
accounts of one thing (`SymbolTable.Coherent`), for as many texts as there are codes. -/

namespace XmlIndex

namespace Interner

variable {t : Interner} {s : String} {c : UInt16}

/-- A code is for the text that has it. -/
theorem text?_eq_some_iff : t.text? c = some s ↔ t.code? s = some c := by
  constructor
  · intro h
    rw [text?] at h
    split at h
    · cases h
    · next hc => exact (t.codes_iff s c).mpr ⟨Nat.pos_of_ne_zero hc, h⟩
  · exact text?_of_code?

/-- A text has a code after a call if it had that code before, or was asked for and answered
it. -/
theorem code?_stateOf_intern (t : Interner) (r s : String) (c : UInt16) :
    (Action.stateOf (intern r t)).code? s = some c ↔
      t.code? s = some c ∨ s = r ∧ Action.outcomeOf (intern r t) = .ok c := by
  cases hr : t.code? r with
  | some c' =>
    rw [intern_of_code? hr, Action.stateOf, Action.outcomeOf, Except.ok.injEq]
    refine (or_iff_left_of_imp ?_).symm
    rintro ⟨rfl, rfl⟩
    exact hr
  | none =>
    -- A new text gets the next code, if there is one.
    by_cases room : t.texts.size + 1 < UInt16.size
    · rw [intern_of_new hr room, Action.stateOf, Action.outcomeOf, code?_push, Except.ok.injEq]
      by_cases hs : r = s
      · simp [← hs, hr]
      · simp [hs, Ne.symm hs]
    · rw [intern_of_full hr room]
      simp [Action.stateOf, Action.outcomeOf]

/-- A text is refused if it has no code and there is none left. -/
theorem intern_eq_error_iff {e : Error} {t' : Interner} : intern s t = .error e t' ↔
    t.code? s = none ∧ t.texts.size = 65535 ∧ e = .symbolsExhausted ∧ t' = t := by
  have hsize := t.size_lt
  have hword : UInt16.size = 65536 := rfl
  cases hs : t.code? s with
  | some c => simp [intern_of_code? hs]
  | none =>
    -- The code zero is given to no text, so 65535 texts take up all the codes.
    by_cases room : t.texts.size + 1 < UInt16.size
    · have hroom : t.texts.size ≠ 65535 := by omega
      simp [intern_of_new hs room, hroom]
    · have hfull : t.texts.size = 65535 := by omega
      simp [intern_of_full hs room, hfull, eq_comm]

end Interner

namespace SymbolTable

/-! ## Requests -/

/-- The two parts of a table. -/
inductive Part where
  | localNames
  | namespaces
  deriving DecidableEq

variable {t t' : SymbolTable} {p q : Part} {r s s' : String} {c : UInt16}

/-- The codes of a part. -/
def codesOf (t : SymbolTable) : Part → Interner
  | .localNames => t.names
  | .namespaces => t.namespaces

/-- The table with other codes of a part. -/
def withCodes (t : SymbolTable) : Part → Interner → SymbolTable
  | .localNames, codes => { t with names := codes }
  | .namespaces, codes => { t with namespaces := codes }

/-- The other part keeps its codes. -/
theorem codesOf_withCodes (t : SymbolTable) (p q : Part) (codes : Interner) :
    (t.withCodes p codes).codesOf q = if q = p then codes else t.codesOf q := by
  cases p <;> cases q <;> rfl

/-- Putting back the codes of a part changes nothing. -/
theorem withCodes_codesOf (t : SymbolTable) (p : Part) : t.withCodes p (t.codesOf p) = t := by
  cases p <;> rfl

/-- Asks for the code of a text. -/
def request : Part → String → Action SymbolTable UInt16
  | .localNames => symbol
  | .namespaces => namespaceSymbol

/-- The empty namespace, whose code is not given out. -/
def Reserved (p : Part) (s : String) : Prop := p = .namespaces ∧ s = ""

/-- No local name is reserved. -/
theorem not_reserved_localNames (s : String) : ¬ Reserved .localNames s := by
  rintro ⟨hp, -⟩
  cases hp

/-- The empty namespace has code 0 without an entry. -/
theorem request_of_reserved (h : Reserved p s) (t : SymbolTable) : request p s t = .ok 0 t := by
  obtain ⟨rfl, rfl⟩ := h
  rfl

/-- Every other text is looked up or given a code in its part. -/
theorem request_of_not_reserved (h : ¬ Reserved p s) (t : SymbolTable) :
    request p s t =
      Action.on (·.codesOf p) (fun codes t => t.withCodes p codes) (Interner.intern s) t := by
  -- Only the namespaces reserve a text.
  cases p with
  | localNames =>
    show onNames (Interner.intern s) t = _
    rw [onNames, Action.on, codesOf]
    cases Interner.intern s t.names <;> rfl
  | namespaces =>
    show namespaceSymbol s t = _
    rw [namespaceSymbol, if_neg fun hs => h ⟨rfl, hs⟩, onNamespaces, Action.on, codesOf]
    cases Interner.intern s t.namespaces <;> rfl

/-- A text has a code after a request if it had that code before, or was asked for and answered
it. -/
theorem code?_stateOf_request (t : SymbolTable) (q : Part) (r : String) (p : Part) (s : String)
    (c : UInt16) :
    ((Action.stateOf (request q r t)).codesOf p).code? s = some c ↔
      (t.codesOf p).code? s = some c ∨
        ¬ Reserved p s ∧ (p, s) = (q, r) ∧ Action.outcomeOf (request q r t) = .ok c := by
  -- The empty namespace leaves the table as it is; any other text goes to the codes of its part.
  by_cases hr : Reserved q r
  · rw [request_of_reserved hr, Action.stateOf]
    refine (or_iff_left_of_imp ?_).symm
    rintro ⟨hs, heq, -⟩
    obtain ⟨rfl, rfl⟩ := Prod.mk.inj heq
    exact absurd hr hs
  · have hon : Action.stateOf (request q r t) =
          t.withCodes q (Action.stateOf (Interner.intern r (t.codesOf q))) ∧
        Action.outcomeOf (request q r t) = Action.outcomeOf (Interner.intern r (t.codesOf q)) := by
      rw [request_of_not_reserved hr, Action.on]
      cases Interner.intern r (t.codesOf q) <;> exact ⟨rfl, rfl⟩
    rw [hon.1, hon.2, codesOf_withCodes]
    by_cases hp : p = q
    · subst hp
      rw [if_pos rfl, Interner.code?_stateOf_intern]
      refine or_congr_right ⟨?_, ?_⟩
      · rintro ⟨rfl, hc⟩
        exact ⟨hr, rfl, hc⟩
      · rintro ⟨-, heq, hc⟩
        exact ⟨(Prod.mk.inj heq).2, hc⟩
    -- The codes of the other part are not touched.
    · simp [hp]

/-! ## Histories -/

/-- The table after requests, whether they were answered or refused. -/
def afterRequests (t : SymbolTable) (requests : List (Part × String)) : SymbolTable :=
  requests.foldl (fun t r => Action.stateOf (request r.1 r.2 t)) t

/-- One more request is made of the table that the earlier ones left. -/
theorem afterRequests_append_singleton (t : SymbolTable) (requests : List (Part × String))
    (p : Part) (s : String) : t.afterRequests (requests ++ [(p, s)]) =
      Action.stateOf (request p s (t.afterRequests requests)) := by
  rw [afterRequests, List.foldl_append]
  rfl

/-- A text was asked for at some point, and the answer was this code. -/
def Given (requests : List (Part × String)) (p : Part) (s : String) (c : UInt16) : Prop :=
  ∃ before, before ++ [(p, s)] <+: requests ∧
    Action.outcomeOf (request p s (empty.afterRequests before)) = .ok c

variable {requests : List (Part × String)}

/-- A code was given by the last request or earlier. -/
theorem given_append_singleton {q : Part} {r : String} :
    Given (requests ++ [(q, r)]) p s c ↔ Given requests p s c ∨
      (p, s) = (q, r) ∧ Action.outcomeOf (request q r (empty.afterRequests requests)) = .ok c := by
  constructor
  · rintro ⟨before, hprefix, hc⟩
    -- The request is the last one, or it was made among those before.
    rcases List.prefix_concat_iff.mp hprefix with heq | hprefix
    · obtain ⟨rfl, hlast⟩ := List.append_inj' heq rfl
      obtain ⟨rfl, rfl⟩ := Prod.mk.inj (List.cons.inj hlast).1
      exact .inr ⟨rfl, hc⟩
    · exact .inl ⟨before, hprefix, hc⟩
  · rintro (⟨before, hprefix, hc⟩ | ⟨heq, hc⟩)
    · exact ⟨before, hprefix.trans (List.prefix_append _ _), hc⟩
    · obtain ⟨rfl, rfl⟩ := Prod.mk.inj heq
      exact ⟨requests, List.prefix_rfl, hc⟩

/-- The codes in a table are those that it has answered. -/
theorem code?_afterRequests : ((empty.afterRequests requests).codesOf p).code? s = some c ↔
    ¬ Reserved p s ∧ Given requests p s c := by
  -- Induction on the requests from their end, one more at a time.
  induction requests using List.reverseRecOn with
  | nil =>
    have hnone : (empty.codesOf p).code? s = none := by
      cases p <;> simp [empty, codesOf, Interner.code?, Interner.empty]
    refine iff_of_false (fun h => ?_) ?_
    · rw [afterRequests, List.foldl_nil, hnone] at h
      cases h
    · rintro ⟨-, before, hprefix, -⟩
      exact absurd (List.prefix_nil.mp hprefix) (by simp)
  | append_singleton requests r ih =>
    obtain ⟨q, r⟩ := r
    rw [afterRequests_append_singleton, code?_stateOf_request, ih, given_append_singleton,
      ← and_or_left]

/-- What was given stays given. -/
theorem Given.append (h : Given requests p s c) (later : List (Part × String)) :
    Given (requests ++ later) p s c := by
  obtain ⟨before, hprefix, hc⟩ := h
  exact ⟨before, hprefix.trans (List.prefix_append _ _), hc⟩

/-- Only the empty namespace is given 0. -/
theorem Given.eq_zero_iff (h : Given requests p s c) : c = 0 ↔ Reserved p s := by
  constructor
  · intro hc
    by_contra hs
    exact Interner.ne_zero_of_code? (code?_afterRequests.mpr ⟨hs, h⟩) hc
  · intro hs
    obtain ⟨before, -, hanswer⟩ := h
    rw [request_of_reserved hs] at hanswer
    exact (Except.ok.inj hanswer).symm

/-- A text that was given a code gets it again. -/
theorem Given.request_eq (h : Given requests p s c) :
    request p s (empty.afterRequests requests) = .ok c (empty.afterRequests requests) := by
  by_cases hs : Reserved p s
  · obtain rfl := h.eq_zero_iff.mpr hs
    exact request_of_reserved hs _
  · rw [request_of_not_reserved hs]
    refine Action.on_eq_ok_iff.mpr ⟨_, ?_, withCodes_codesOf _ p⟩
    exact Interner.intern_of_code? (code?_afterRequests.mpr ⟨hs, h⟩)

/-- Two texts of a part were not given the same code. -/
theorem Given.inj (h : Given requests p s c) (h' : Given requests p s' c) : s = s' := by
  by_cases hc : c = 0
  · rw [(h.eq_zero_iff.mp hc).2, (h'.eq_zero_iff.mp hc).2]
  · have hs : ¬ Reserved p s := mt h.eq_zero_iff.mpr hc
    have hs' : ¬ Reserved p s' := mt h'.eq_zero_iff.mpr hc
    exact Interner.code?_inj (code?_afterRequests.mpr ⟨hs, h⟩) (code?_afterRequests.mpr ⟨hs', h'⟩)

/-! ## Texts -/

/-- The local name of a code is the text it was given for. -/
theorem name?_afterRequests :
    (empty.afterRequests requests).name? c = some s ↔ Given requests .localNames s c := by
  have hcode : ((empty.afterRequests requests).codesOf .localNames).code? s = some c ↔ _ :=
    code?_afterRequests
  rw [name?, Interner.text?_eq_some_iff]
  exact hcode.trans (and_iff_right (not_reserved_localNames s))

/-- The namespace of a code is the text it was given for, and that of code 0 the empty one. -/
theorem namespace?_afterRequests :
    (empty.afterRequests requests).namespace? c = some s ↔
      Given requests .namespaces s c ∨ c = 0 ∧ s = "" := by
  rw [namespace?]
  split
  · next hc =>
    -- The empty namespace may have been asked for.
    rw [Option.some.injEq, eq_comm, and_iff_right hc, or_iff_right_of_imp]
    exact fun h => (h.eq_zero_iff.mp hc).2
  · next hc =>
    have hcode : ((empty.afterRequests requests).codesOf .namespaces).code? s = some c ↔ _ :=
      code?_afterRequests
    rw [Interner.text?_eq_some_iff, or_iff_left fun h => hc h.1]
    exact hcode.trans (and_iff_right_of_imp fun h => mt h.eq_zero_iff.mpr hc)

/-! ## Refusals -/

/-- A request is refused if its text is new, not the empty namespace, and no code is left. -/
theorem request_eq_error_iff {e : Error} : request p s t = .error e t' ↔
    ¬ Reserved p s ∧ (t.codesOf p).code? s = none ∧ (t.codesOf p).texts.size = 65535 ∧
      e = .symbolsExhausted ∧ t' = t := by
  by_cases hs : Reserved p s
  · rw [request_of_reserved hs]
    simp [hs]
  · rw [request_of_not_reserved hs, Action.on_eq_error_iff]
    simp only [Interner.intern_eq_error_iff]
    constructor
    · rintro ⟨_, ⟨hnew, hfull, he, rfl⟩, rfl⟩
      exact ⟨hs, hnew, hfull, he, withCodes_codesOf t p⟩
    · rintro ⟨-, hnew, hfull, he, rfl⟩
      exact ⟨_, ⟨hnew, hfull, he, rfl⟩, withCodes_codesOf t' p⟩

/-- A part has as many texts as were given codes of it. -/
theorem size_texts_afterRequests (requests : List (Part × String)) (p : Part) :
    ((empty.afterRequests requests).codesOf p).texts.size =
      {s | ¬ Reserved p s ∧ ∃ c, Given requests p s c}.ncard := by
  set codes := (empty.afterRequests requests).codesOf p with hcodes
  -- The texts with a code are those of the part, and each stands there once.
  have hset : {s | ¬ Reserved p s ∧ ∃ c, Given requests p s c} =
      (codes.texts.toList.toFinset : Set String) := by
    ext s
    rw [Finset.mem_coe, List.mem_toFinset, Interner.mem_texts_iff, Option.isSome_iff_exists]
    simp only [hcodes, code?_afterRequests, exists_and_left]
    rfl
  rw [hset, Set.ncard_coe_finset, List.toFinset_card_of_nodup codes.nodup_texts,
    Array.length_toList]

/-- A new text is refused if as many texts as there are codes were given one. -/
theorem request_refused_iff (hs : ¬ Reserved p s) (hnew : ∀ c, ¬ Given requests p s c) :
    (∃ e t, request p s (empty.afterRequests requests) = .error e t) ↔
      {s | ¬ Reserved p s ∧ ∃ c, Given requests p s c}.ncard = 65535 := by
  have hnone : ((empty.afterRequests requests).codesOf p).code? s = none :=
    Option.eq_none_iff_forall_ne_some.mpr fun c hc => hnew c (code?_afterRequests.mp hc).2
  rw [← size_texts_afterRequests]
  simp [request_eq_error_iff, hs, hnone]

/-! ## Codes, answers and texts -/

/-- What is relied on in the table after some requests: the codes that it has answered, and what
it answers from then on. -/
structure Coherent (requests : List (Part × String)) : Prop where
  again : ∀ p s c, Given requests p s c → ∀ later,
    request p s (empty.afterRequests (requests ++ later)) =
      .ok c (empty.afterRequests (requests ++ later))
  distinct : ∀ p s s' c, Given requests p s c → Given requests p s' c → s = s'
  localName_ne_zero : ∀ s c, Given requests .localNames s c → c ≠ 0
  namespace_eq_zero_iff : ∀ s c, Given requests .namespaces s c → (c = 0 ↔ s = "")
  empty_namespace : request .namespaces "" (empty.afterRequests requests) =
    .ok 0 (empty.afterRequests requests)
  name?_iff : ∀ s c, (empty.afterRequests requests).name? c = some s ↔
    Given requests .localNames s c
  uri?_iff : ∀ s c, (empty.afterRequests requests).namespace? c = some s ↔
    Given requests .namespaces s c ∨ c = 0 ∧ s = ""
  refused_iff : ∀ p s, ¬ Reserved p s → (∀ c, ¬ Given requests p s c) →
    ((∃ e t, request p s (empty.afterRequests requests) = .error e t) ↔
      {s | ¬ Reserved p s ∧ ∃ c, Given requests p s c}.ncard = 65535)
  refusal : ∀ p s e t, request p s (empty.afterRequests requests) = .error e t →
    e.kind = .invalidState ∧ t = empty.afterRequests requests

/-- Codes and texts determine each other after any requests, in both parts of the table, up to
the last code there is. -/
theorem codes_determine_texts (requests : List (Part × String)) : Coherent requests where
  again p s c h later := (h.append later).request_eq
  distinct p s s' c h h' := h.inj h'
  localName_ne_zero s c h := mt h.eq_zero_iff.mp (not_reserved_localNames s)
  namespace_eq_zero_iff s c h := h.eq_zero_iff.trans (and_iff_right rfl)
  empty_namespace := rfl
  name?_iff s c := name?_afterRequests
  uri?_iff s c := namespace?_afterRequests
  refused_iff p s hs hnew := request_refused_iff hs hnew
  refusal p s e t h := by
    obtain ⟨-, -, -, rfl, rfl⟩ := request_eq_error_iff.mp h
    exact ⟨rfl, rfl⟩

/-- Two local names are asked for. -/
def twoNames : List (Part × String) := [(.localNames, "title"), (.localNames, "note")]

/-- Two local names have different codes, from which the table tells them, and the first keeps its
code while a namespace gets one. -/
theorem codes_determine_texts_twoNames : ∃ c c',
    Given twoNames .localNames "title" c ∧ Given twoNames .localNames "note" c' ∧ c ≠ c' ∧
      (empty.afterRequests twoNames).name? c' = some "note" ∧
      request .localNames "title" (empty.afterRequests (twoNames ++ [(.namespaces, "urn:books")])) =
        .ok c (empty.afterRequests (twoNames ++ [(.namespaces, "urn:books")])) := by
  have hroom : empty.names.HasRoomFor ["title", "note"] := Interner.hasRoomFor_empty (by decide)
  obtain ⟨c, t, htitle, hroom', -⟩ := exists_symbol hroom
  obtain ⟨c', t', hnote, -⟩ := exists_symbol hroom'
  have hc : Given twoNames .localNames "title" c :=
    ⟨[], List.prefix_append _ _, congrArg Action.outcomeOf htitle⟩
  have hc' : Given twoNames .localNames "note" c' := by
    refine ⟨[(.localNames, "title")], List.prefix_rfl, ?_⟩
    show Action.outcomeOf (symbol "note" (Action.stateOf (symbol "title" empty))) = _
    rw [htitle, Action.stateOf, hnote, Action.outcomeOf]
  have hcoherent := codes_determine_texts twoNames
  refine ⟨c, c', hc, hc', ?_, (hcoherent.name?_iff _ _).mpr hc', hcoherent.again _ _ _ hc _⟩
  rintro rfl
  exact absurd (hcoherent.distinct _ _ _ _ hc hc') (by decide)

end SymbolTable

end XmlIndex
