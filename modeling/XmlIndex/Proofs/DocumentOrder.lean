import XmlIndex.NodeId.Basic

/-! # Document order

Node ids are ordered as lists of ordinals, and keys as lists of bytes.  In both orders the
lists that extend a given one stand together (`prefix_of_between`): nothing else lies between
them.  So everything below a node is one stretch of document order.

`IsPast n a` says that `n` lies behind that stretch for `a`.  Once that is so it stays so
(`IsPast.of_le`), and whatever is not yet past `a` stands in front of the next node that is
not below `a` (`lt_of_not_isPast`).  A merge pass over nodes in document order rests on
these two facts. -/

namespace XmlIndex

/-! ## Lists and their extensions -/

section Lists

variable {α : Type} [Ord α]

/-- A list does not stand behind the lists that extend it. -/
theorem isLE_compare_of_extends [Std.ReflOrd α] {a b : List α} (h : a <+: b) :
    (compare a b).isLE := by
  induction a generalizing b with
  | nil => exact List.isLE_compare_nil_left
  | cons x a ih =>
    obtain ⟨t, rfl⟩ := h
    rw [List.cons_append, List.compare_cons_cons, Std.ReflOrd.compare_self]
    exact ih (List.prefix_append a t)

/-- Lists that start with parts of one length are compared part by part. -/
theorem compare_append {as as' : List α} (h : as.length = as'.length) (bs bs' : List α) :
    compare (as ++ bs) (as' ++ bs') = (compare as as').then (compare bs bs') := by
  -- Induction on the parts, which are equally long.
  induction as generalizing as' with
  | nil =>
    obtain rfl := List.length_eq_zero_iff.mp h.symm
    rfl
  | cons a as ih =>
    cases as' with
    | nil => cases h
    | cons a' as' =>
      rw [List.cons_append, List.cons_append, List.compare_cons_cons, List.compare_cons_cons,
        ih (Nat.succ.inj h), Ordering.then_assoc]

variable [Std.TransOrd α] [Std.LawfulEqOrd α]

/-- No other list lies between a list and one that extends it. -/
theorem prefix_of_between {p k k' : List α} (hp : p <+: k') (hpk : (compare p k).isLE)
    (hkk : (compare k k').isLE) : p <+: k := by
  induction p generalizing k k' with
  | nil => exact List.nil_prefix
  | cons x p ih =>
    obtain ⟨t, rfl⟩ := hp
    cases k with
    | nil => cases hpk
    | cons y k =>
      rw [List.compare_cons_cons] at hpk
      rw [List.cons_append, List.compare_cons_cons] at hkk
      -- The ordinals in front are equal, as each is at most the other.
      have hxy : compare x y = .eq := by
        have h₁ := Ordering.isLE_left_of_isLE_then hpk
        have h₂ := Ordering.isLE_left_of_isLE_then hkk
        exact Std.OrientedCmp.isLE_antisymm h₁ h₂
      obtain rfl := Std.LawfulEqOrd.eq_of_compare hxy
      rw [Std.ReflOrd.compare_self] at hpk hkk
      exact List.cons_prefix_cons.mpr ⟨rfl, ih (List.prefix_append p t) hpk hkk⟩

/-- A list that stands behind `a` without extending it stands behind all that extend it. -/
theorem compare_eq_lt_of_extends {a b x : List α} (hx : a <+: x) (hab : compare a b = .lt)
    (hb : ¬ a <+: b) : compare x b = .lt := by
  cases hc : compare x b with
  | lt => rfl
  | eq =>
    obtain rfl := Std.LawfulEqOrd.eq_of_compare hc
    exact absurd hx hb
  | gt =>
    -- Otherwise `b` stands between `a` and `x`, and so extends `a`.
    have hbx : (compare b x).isLE := by rw [Std.OrientedCmp.lt_of_gt hc]; rfl
    exact absurd (prefix_of_between hx (by rw [hab]; rfl) hbx) hb

end Lists

namespace NodeId

/-! ## The order on node ids -/

instance : Std.IsLinearOrder NodeId :=
  .of_le ⟨fun _ _ h₁ h₂ => Std.LawfulEqOrd.eq_of_compare (Std.OrientedCmp.isLE_antisymm h₁ h₂)⟩
    ⟨fun h₁ h₂ => Std.TransCmp.isLE_trans h₁ h₂⟩ ⟨fun a b => by
      change (compare a b).isLE ∨ (compare b a).isLE
      rw [Std.OrientedOrd.eq_swap (a := b)]
      cases compare a b <;> decide⟩

instance : Std.LawfulOrderLT NodeId :=
  .of_le fun a b => by
    change compare a b = .lt ↔ (compare a b).isLE ∧ ¬ (compare b a).isLE
    rw [Std.OrientedOrd.eq_swap (a := b)]
    cases compare a b <;> decide

/-- To compare as less is to be less. -/
theorem compare_eq_lt_iff {a b : NodeId} : compare a b = .lt ↔ a < b := Iff.rfl

/-- The same as a test. -/
theorem isLT_compare_iff {a b : NodeId} : (compare a b).isLT ↔ a < b := by
  rw [← compare_eq_lt_iff]
  cases compare a b <;> decide

/-! ## Relations as prefixes -/

/-- The end of the document is the id without levels. -/
theorem isEnd_iff {n : NodeId} : n.isEnd ↔ n.levels = [] := List.isEmpty_iff

/-- A node is related to those whose levels its own begin with. -/
theorem isSome_relationTo?_iff {n a : NodeId} :
    (n.relationTo? a).isSome ↔ a.levels ≠ [] ∧ a.levels <+: n.levels := by
  rw [← List.isPrefixOf_iff_prefix, ne_eq, ← isEnd_iff, relationTo?]
  cases a.isEnd with
  | true => simp
  | false =>
    cases a.levels.isPrefixOf n.levels with
    | false => simp
    | true =>
      simp only [Bool.not_true, Bool.or_self, Bool.false_eq_true, if_false]
      split <;> simp

/-- A descendant has more levels than its ancestor, and begins with them. -/
theorem isDescendantOf_iff {n a : NodeId} :
    n.isDescendantOf a ↔
      a.levels ≠ [] ∧ a.levels.length < n.levels.length ∧ a.levels <+: n.levels := by
  rw [← List.isPrefixOf_iff_prefix, ne_eq, ← isEnd_iff]
  simp [isDescendantOf]

/-- A node stands in front of the nodes below it. -/
theorem le_of_relationTo? {n a : NodeId} (h : (n.relationTo? a).isSome) : a ≤ n :=
  isLE_compare_of_extends (isSome_relationTo?_iff.mp h).2

/-! ## The end of a subtree -/

/-- `n` lies behind everything below `a`. -/
def IsPast (n a : NodeId) : Prop := a < n ∧ n.relationTo? a = none

/-- What follows a node past `a` is past `a` too. -/
theorem IsPast.of_le {n m a : NodeId} (h : n.IsPast a) (hnm : n ≤ m) : m.IsPast a := by
  refine ⟨Std.lt_of_lt_of_le h.1 hnm, Option.not_isSome_iff_eq_none.mp fun hm => ?_⟩
  obtain ⟨ha, hp⟩ := isSome_relationTo?_iff.mp hm
  -- If `m` were below `a`, so would be `n`, which lies between them.
  have hn : (n.relationTo? a).isSome :=
    isSome_relationTo?_iff.mpr ⟨ha, prefix_of_between hp (Std.le_of_lt h.1) hnm⟩
  rw [h.2] at hn
  cases hn

/-- A node past `a` is not below it. -/
theorem IsPast.not_isDescendantOf {n a : NodeId} (h : n.IsPast a) : ¬ n.isDescendantOf a := by
  intro hd
  obtain ⟨ha, _, hp⟩ := isDescendantOf_iff.mp hd
  have hs := isSome_relationTo?_iff.mpr ⟨ha, hp⟩
  rw [h.2] at hs
  cases hs

/-- What is not past `a` stands in front of a node behind `a` that is not below it. -/
theorem lt_of_not_isPast {n a b : NodeId} (h : ¬ n.IsPast a) (hab : a < b)
    (hb : ¬ b.isDescendantOf a) : n < b := by
  by_cases hr : (n.relationTo? a).isSome
  · obtain ⟨ha, hp⟩ := isSome_relationTo?_iff.mp hr
    refine compare_eq_lt_of_extends hp hab fun hpb => hb ?_
    -- `a` is not `b`, so a `b` that extends it is below it.
    have hne : a.levels ≠ b.levels := by
      intro he
      have heq : a = b := congrArg mk he
      exact Std.lt_irrefl (heq ▸ hab)
    refine isDescendantOf_iff.mpr ⟨ha, ?_, hpb⟩
    exact Nat.lt_of_le_of_ne hpb.length_le fun hl => hne (hpb.eq_of_length hl)
  · have hna : ¬ a < n := fun han => h ⟨han, by simpa using hr⟩
    exact Std.lt_of_le_of_lt (Std.not_lt.mp hna) hab

end NodeId

end XmlIndex
