import Mathlib.Data.List.Forall2
import XmlIndex.NodeId.Text

/-! # The text of node ids

A text is a node id if and only if each of its parts between points is the numeral of a positive
word (`NodeId.parse_eq_ok_iff`).  The parts are those of `List.splitOn`, and the numeral of a word
is written with ASCII digits only, of which there is one at least, behind at most one plus sign
(`NodeId.Denotes`).

Ids are printed without signs and leading zeros, which is one of the texts that are read back as
the id (`NodeId.parse_toText`). -/

namespace XmlIndex

namespace NodeId

variable {cs part : List Char} {value m : Nat} {v : UInt32} {s : String} {n : NodeId}

/-! ## Numerals -/

/-- A numeral of a word, with or without a sign and with any number of leading zeros. -/
def Denotes (part : List Char) (v : UInt32) : Prop :=
  ∃ digits, (part = digits ∨ part = '+' :: digits) ∧ digits ≠ [] ∧
    (∀ c ∈ digits, c.isDigit) ∧ Nat.ofDigitChars 10 digits 0 = v.toNat

/-- More digits make no smaller number. -/
theorem le_ofDigitChars (cs : List Char) (value : Nat) : value ≤ Nat.ofDigitChars 10 cs value := by
  induction cs generalizing value with
  | nil => exact Nat.le_refl _
  | cons c cs ih =>
    rw [Nat.ofDigitChars_cons]
    exact Nat.le_trans (by omega) (ih _)

/-- Digits are read on as long as their value fits into a word. -/
theorem numeralFrom_eq_ok_iff (hvalue : value < UInt32.size) : numeralFrom value cs = .ok m ↔
    (∀ c ∈ cs, c.isDigit) ∧ Nat.ofDigitChars 10 cs value = m ∧ m < UInt32.size := by
  -- Induction on the characters; what was read in front is the value so far.
  induction cs generalizing value with
  | nil =>
    rw [numeralFrom, Except.ok.injEq, Nat.ofDigitChars_nil]
    constructor
    · rintro rfl
      exact ⟨fun c hc => absurd hc List.not_mem_nil, rfl, hvalue⟩
    · exact fun h => h.2.1
  | cons c cs ih =>
    rw [numeralFrom, Nat.ofDigitChars_cons, Nat.mul_comm 10 value, List.forall_mem_cons]
    split
    · next hc =>
      dsimp only
      split
      · next hlt => rw [ih hlt, and_iff_right hc]
      · next hge =>
        -- The value does not get smaller behind this digit.
        refine iff_of_false (fun h => nomatch h) ?_
        rintro ⟨-, rfl, hlt⟩
        exact hge (Nat.lt_of_le_of_lt (le_ofDigitChars cs _) hlt)
    · next hc => exact iff_of_false (fun h => nomatch h) fun h => hc h.1.1

/-- Digits are read as a word if their number is one. -/
theorem map_numeralFrom_eq_ok_iff : UInt32.ofNat <$> numeralFrom 0 cs = .ok v ↔
    (∀ c ∈ cs, c.isDigit) ∧ Nat.ofDigitChars 10 cs 0 = v.toNat := by
  -- The number of a word is below the bound anyway.
  have hfrom : numeralFrom 0 cs = .ok v.toNat ↔ _ := numeralFrom_eq_ok_iff (by decide)
  rw [← and_assoc, and_iff_left v.toNat_lt] at hfrom
  rw [← hfrom]
  cases hread : numeralFrom 0 cs with
  | error e => exact iff_of_false (fun h => nomatch h) fun h => nomatch h
  | ok m =>
    obtain ⟨-, -, hm⟩ := (numeralFrom_eq_ok_iff (by decide)).mp hread
    show Except.ok (UInt32.ofNat m) = .ok v ↔ _
    rw [Except.ok.injEq, Except.ok.injEq, ← UInt32.toNat_inj, UInt32.toNat_ofNat',
      Nat.mod_eq_of_lt hm]

/-- A text that is no sign in front of others can only be digits itself. -/
theorem denotes_iff_of_unsigned (hne : part ≠ [])
    (hsign : ∀ digits, digits ≠ [] → part ≠ '+' :: digits) :
    Denotes part v ↔ (∀ c ∈ part, c.isDigit) ∧ Nat.ofDigitChars 10 part 0 = v.toNat := by
  constructor
  · rintro ⟨digits, rfl | rfl, hsome, hdigits⟩
    · exact hdigits
    · exact absurd rfl (hsign digits hsome)
  · exact fun h => ⟨part, .inl rfl, hne, h⟩

/-- Behind a sign there are digits. -/
theorem denotes_plus_iff (hne : part ≠ []) :
    Denotes ('+' :: part) v ↔
      (∀ c ∈ part, c.isDigit) ∧ Nat.ofDigitChars 10 part 0 = v.toNat := by
  constructor
  -- The sign is no digit, so it is the one that may stand in front.
  · rintro ⟨digits, rfl | h, -, hdigits, hvalue⟩
    · exact absurd (hdigits '+' (List.mem_cons_self ..)) (by decide)
    · obtain rfl := (List.cons.inj h).2
      exact ⟨hdigits, hvalue⟩
  · exact fun h => ⟨part, .inr rfl, hne, h⟩

/-- A part is read as the word that it denotes, and not at all if it denotes none. -/
theorem numeral_eq_ok_iff : numeral part = .ok v ↔ Denotes part v := by
  rw [numeral.eq_def]
  split
  · refine iff_of_false (fun h => nomatch h) ?_
    rintro ⟨digits, rfl | h, hne, -⟩
    · exact hne rfl
    · cases h
  -- One character is never taken for a sign.
  · next c =>
    rw [map_numeralFrom_eq_ok_iff, denotes_iff_of_unsigned (List.cons_ne_nil _ _)]
    exact fun digits hne h => hne (List.cons.inj h).2.symm
  -- A sign with something behind it.
  · next digits hlong =>
    rw [map_numeralFrom_eq_ok_iff, denotes_plus_iff]
    rintro rfl
    exact hlong rfl
  -- More than one character, with no sign in front.
  · next hne hlong hsign =>
    rw [map_numeralFrom_eq_ok_iff, denotes_iff_of_unsigned hne]
    exact fun digits _ h => hsign digits h

/-! ## Parts -/

/-- The parts are those between points. -/
theorem parts_eq_splitOn (cs : List Char) : parts cs = cs.splitOn '.' := by
  induction cs with
  | nil => rfl
  | cons c cs ih =>
    rw [parts, List.splitOn_cons_eq_if_modifyHead, ih]
    simp only [beq_iff_eq]
    congr 1
    cases hsplit : cs.splitOn '.' with
    | nil => exact absurd hsplit (List.splitOn_ne_nil '.' cs)
    | cons part more => rfl

/-- Reading all succeeds if reading each does. -/
theorem mapM_eq_ok_iff {α β : Type} {f : α → Except Error β} {as : List α} {bs : List β} :
    as.mapM f = .ok bs ↔ List.Forall₂ (fun a b => f a = .ok b) as bs := by
  -- Induction on the list, by its first element and the others.
  induction as generalizing bs with
  | nil =>
    rw [List.mapM_nil, List.forall₂_nil_left_iff]
    exact ⟨fun h => (Except.ok.inj h).symm, fun h => h ▸ rfl⟩
  | cons a as ih =>
    rw [List.mapM_cons, List.forall₂_cons_left_iff]
    simp only [← ih]
    -- The first failure ends the reading.
    cases hfirst : f a with
    | error e => exact iff_of_false (fun h => nomatch h) fun ⟨_, _, h, _⟩ => nomatch h
    | ok b =>
      cases hothers : as.mapM f with
      | error e => exact iff_of_false (fun h => nomatch h) fun ⟨_, _, _, h, _⟩ => nomatch h
      | ok bs' =>
        constructor
        · intro h
          exact ⟨b, bs', rfl, rfl, (Except.ok.inj h).symm⟩
        · rintro ⟨_, _, hb, hbs, rfl⟩
          rw [← Except.ok.inj hb, ← Except.ok.inj hbs]
          rfl

/-- Levels are an id if there are some and none is zero. -/
theorem ofLevels_eq_ok_iff {levels : List UInt32} :
    ofLevels levels = .ok n ↔ levels ≠ [] ∧ 0 ∉ levels ∧ n.levels = levels := by
  rw [ofLevels]
  split
  · next h => exact iff_of_false (fun h' => nomatch h') fun h' => h'.1 (List.isEmpty_iff.mp h)
  · next hsome =>
    split
    · next hzero =>
      refine iff_of_false (fun h => nomatch h) fun h => h.2.1 ?_
      exact List.contains_iff_mem.mp hzero
    · next hzero =>
      rw [Except.ok.injEq]
      -- What is left are levels that pass both tests.
      constructor
      · rintro rfl
        exact ⟨fun h => hsome (List.isEmpty_iff.mpr h),
          fun h => hzero (List.contains_iff_mem.mpr h), rfl⟩
      · rintro ⟨-, -, rfl⟩
        rfl

/-- A part, read as a level of the id that a text stands for. -/
def levelOf (text : String) (part : List Char) : Except Error UInt32 :=
  match numeral part with
  | .ok n => .ok n
  | .error fault => .error (.badNodeId text fault)

/-- A part is a level if it denotes one. -/
theorem levelOf_eq_ok_iff : levelOf s part = .ok v ↔ Denotes part v := by
  rw [levelOf, ← numeral_eq_ok_iff]
  cases numeral part <;> simp

/-- A text is split, and its parts are read as the levels of an id. -/
theorem parse_eq (s : String) :
    parse s = (s.toList.splitOn '.').mapM (levelOf s) >>= ofLevels := by
  rw [parse, parts_eq_splitOn]
  rfl

/-- There is always one part, and so there is always one level. -/
theorem levels_ne_nil {levels : List UInt32}
    (h : List.Forall₂ Denotes (s.toList.splitOn '.') levels) : levels ≠ [] := by
  rintro rfl
  exact List.splitOn_ne_nil '.' s.toList (List.forall₂_nil_right_iff.mp h)

/-- A text is read as the id whose levels its parts denote. -/
theorem parse_eq_ok_iff : parse s = .ok n ↔
    List.Forall₂ Denotes (s.toList.splitOn '.') n.levels ∧ 0 ∉ n.levels := by
  have hlevels : ∀ levels, (s.toList.splitOn '.').mapM (levelOf s) = .ok levels ↔
      List.Forall₂ Denotes (s.toList.splitOn '.') levels := fun levels => by
    simp only [mapM_eq_ok_iff, levelOf_eq_ok_iff]
  rw [parse_eq, ← hlevels]
  -- There is a part at least, so only a zero is refused among words.
  cases hread : (s.toList.splitOn '.').mapM (levelOf s) with
  | error e => exact iff_of_false (fun h => nomatch h) fun h => nomatch h.1
  | ok levels =>
    show ofLevels levels = .ok n ↔ Except.ok levels = .ok n.levels ∧ 0 ∉ n.levels
    rw [ofLevels_eq_ok_iff, Except.ok.injEq]
    constructor
    · rintro ⟨-, hzero, rfl⟩
      exact ⟨rfl, hzero⟩
    · rintro ⟨rfl, hzero⟩
      exact ⟨levels_ne_nil ((hlevels _).mp hread), hzero, rfl⟩

/-- What is read is an id. -/
theorem valid_of_parse (h : parse s = .ok n) : n.Valid :=
  ⟨levels_ne_nil (parse_eq_ok_iff.mp h).1, (parse_eq_ok_iff.mp h).2⟩

/-- Parts have levels together if each has one by itself. -/
theorem exists_levels_iff {parts : List (List Char)} :
    (∃ levels, List.Forall₂ Denotes parts levels ∧ 0 ∉ levels) ↔
      ∀ part ∈ parts, ∃ v, Denotes part v ∧ v ≠ 0 := by
  -- Induction on the parts, each with its own level.
  induction parts with
  | nil => exact iff_of_true ⟨[], .nil, List.not_mem_nil⟩ fun _ h => absurd h List.not_mem_nil
  | cons part parts ih =>
    rw [List.forall_mem_cons, ← ih]
    constructor
    · rintro ⟨_, hlevels, hzero⟩
      obtain ⟨v, levels, hv, hothers, rfl⟩ := List.forall₂_cons_left_iff.mp hlevels
      rw [List.mem_cons, not_or] at hzero
      exact ⟨⟨v, hv, Ne.symm hzero.1⟩, levels, hothers, hzero.2⟩
    · rintro ⟨⟨v, hv, hpos⟩, levels, hothers, hzero⟩
      refine ⟨v :: levels, .cons hv hothers, ?_⟩
      rw [List.mem_cons, not_or]
      exact ⟨hpos.symm, hzero⟩

/-! ## Printed ids -/

/-- A number is printed in digits. -/
theorem isDigit_of_mem_toDigits {c : Char} (h : c ∈ Nat.toDigits 10 m) : c.isDigit :=
  Nat.isDigit_of_mem_toDigits (by decide) (by decide) h

/-- A printed word denotes itself. -/
theorem denotes_toDigits (v : UInt32) : Denotes (Nat.toDigits 10 v.toNat) v :=
  ⟨_, .inl rfl, Nat.toDigits_ne_nil, fun _ => isDigit_of_mem_toDigits,
    Nat.ofDigitChars_ten_toDigits⟩

/-- The parts of a printed id are the digits of its levels. -/
theorem splitOn_toText (h : n.levels ≠ []) :
    n.toText.toList.splitOn '.' = n.levels.map fun l => Nat.toDigits 10 l.toNat := by
  have hdigits : ∀ l : UInt32, (toString l.toNat).toList = Nat.toDigits 10 l.toNat := by
    intro l
    rw [Nat.toString_eq_ofList_toDigits, String.toList_ofList]
  have hpoint : ".".toList = ['.'] := rfl
  rw [toText, if_neg (by simpa [isEnd] using h), String.toList_intercalate, List.map_map, hpoint]
  simp only [Function.comp_def, hdigits]
  refine List.splitOn_intercalate '.' (fun part hpart hmem => ?_) (by simpa using h)
  -- A point is no digit.
  obtain ⟨l, -, rfl⟩ := List.mem_map.mp hpart
  exact absurd (isDigit_of_mem_toDigits hmem) (by decide)

/-- A printed id is read back. -/
theorem parse_toText (h : n.Valid) : parse n.toText = .ok n := by
  rw [parse_eq_ok_iff, splitOn_toText h.1, List.forall₂_map_left_iff, List.forall₂_same]
  exact ⟨fun v _ => denotes_toDigits v, h.2⟩

/-! ## Texts and ids -/

/-- A text stands for a node id if and only if each of its parts between points is the numeral of a
positive word, and then for the id with these words as levels.

Every id prints a text that stands for it.  So whatever stands for an id, the text printed for it
stands for the same one. -/
theorem text_stands_for_id :
    (∀ s, (∃ n, parse s = .ok n) ↔ ∀ part ∈ s.toList.splitOn '.', ∃ v, Denotes part v ∧ v ≠ 0) ∧
    (∀ s n, parse s = .ok n → List.Forall₂ Denotes (s.toList.splitOn '.') n.levels) ∧
    (∀ n, n.Valid → parse n.toText = .ok n) ∧
    ∀ s n, parse s = .ok n → parse n.toText = .ok n := by
  refine ⟨fun s => ?_, fun s n h => (parse_eq_ok_iff.mp h).1, fun n => parse_toText,
    fun s n h => parse_toText (valid_of_parse h)⟩
  -- One word for each part is the same as a list of levels for all of them.
  rw [← exists_levels_iff]
  constructor
  · rintro ⟨n, h⟩
    exact ⟨n.levels, parse_eq_ok_iff.mp h⟩
  · rintro ⟨levels, h⟩
    exact ⟨⟨levels⟩, parse_eq_ok_iff.mpr h⟩

/-- A sign, leading zeros and the largest word are read, and printed without sign and zeros. -/
theorem text_stands_for_id_signed :
    parse "+01.4294967295" = .ok ⟨[1, 4294967295]⟩ ∧
      parse (toText ⟨[1, 4294967295]⟩) = .ok ⟨[1, 4294967295]⟩ := by
  have h : parse "+01.4294967295" = .ok ⟨[1, 4294967295]⟩ := by decide
  exact ⟨h, text_stands_for_id.2.2.2 _ _ h⟩

end NodeId

end XmlIndex
