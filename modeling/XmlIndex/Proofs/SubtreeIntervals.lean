import XmlIndex.Proofs.DocumentOrder

/-! # Subtrees as intervals of document order

Whether one node is above another, and how far, is told by the steps up that lead from the one to
the other (`NodeId.climb?`).  The relation of the two goes by the number of these steps
(`NodeId.relationTo?_eq_some_iff`), and so do the three tests.

A node and all nodes below it are an interval of document order with that node in front.  If the
node has a next sibling, the interval ends right in front of it
(`NodeId.isDescendantOrSelfOf_iff_lt_nextSibling?`). -/

namespace XmlIndex

/-! ## Lists behind a common front -/

/-- If no element but `u` lies from `u` up to `v`, the lists that extend `p ++ [u]` are those that
lie from there up to `p ++ [v]`. -/
theorem concat_prefix_iff_between {α : Type} [Ord α] [Std.TransOrd α] [Std.LawfulEqOrd α]
    {p x : List α} {u v : α} (huv : ∀ w, w = u ↔ (compare u w).isLE ∧ compare w v = .lt) :
    p ++ [u] <+: x ↔ (compare (p ++ [u]) x).isLE ∧ compare x (p ++ [v]) = .lt := by
  have hstep : compare (p ++ [u]) (p ++ [v]) = .lt := by
    rw [compare_append rfl, Std.ReflOrd.compare_self, List.compare_cons_cons, ((huv u).mp rfl).2]
    rfl
  constructor
  · intro hx
    refine ⟨isLE_compare_of_extends hx, compare_eq_lt_of_extends hx hstep fun hpre => ?_⟩
    -- Of two lists of one length neither extends the other, unless they are equal.
    have heq := hpre.eq_of_length (by simp)
    rw [heq, Std.ReflOrd.compare_self] at hstep
    cases hstep
  · rintro ⟨hux, hxv⟩
    -- `x` lies between two lists that extend `p`, and so it extends `p` as well.
    have hpu : (compare p (p ++ [u])).isLE := isLE_compare_of_extends (List.prefix_append p [u])
    obtain ⟨t, rfl⟩ := prefix_of_between (List.prefix_append p [v])
      (Std.TransCmp.isLE_trans hpu hux) (by rw [hxv]; rfl)
    rw [compare_append rfl, Std.ReflOrd.compare_self, Ordering.eq_then] at hux hxv
    cases t with
    | nil => cases hux
    | cons w t =>
      -- Behind `p` its next element is not below `u`, and is below `v`, as no list is below `[]`.
      rw [List.compare_cons_cons] at hux hxv
      have hwv : compare w v = .lt := by
        rcases Ordering.then_eq_lt.mp hxv with h | ⟨-, h⟩
        · exact h
        · cases t <;> cases h
      obtain rfl := (huv w).mpr ⟨Ordering.isLE_left_of_isLE_then hux, hwv⟩
      simp

/-! ## Steps up -/

namespace Relation

variable {k : Nat}

/-- The relation of a node to the one `k` steps up. -/
def ofSteps : (k : Nat) → Relation
  | 0 => self
  | 1 => child
  | _ => descendant

/-- No step up leads to the node itself. -/
theorem ofSteps_eq_self_iff : ofSteps k = self ↔ k = 0 := by
  rcases k with _ | _ | k <;> simp [ofSteps]

/-- One step up leads from a child to its parent. -/
theorem ofSteps_eq_child_iff : ofSteps k = child ↔ k = 1 := by
  rcases k with _ | _ | k <;> simp [ofSteps]

/-- Two steps up or more lead from a node farther below. -/
theorem ofSteps_eq_descendant_iff : ofSteps k = descendant ↔ 2 ≤ k := by
  rcases k with _ | _ | k <;> simp [ofSteps]

end Relation

namespace NodeId

variable {d a s x y z : NodeId} {r : Relation} {k : Nat}

/-- The node `k` steps up, if there are so many levels above. -/
def climb? : (k : Nat) → NodeId → Option NodeId
  | 0, n => some n
  | k + 1, n => n.parent?.bind (climb? k)

/-- Without a step one stays at the node. -/
theorem climb?_zero (n : NodeId) : n.climb? 0 = some n := rfl

/-- One step up leads to the parent. -/
theorem climb?_one (n : NodeId) : n.climb? 1 = n.parent? := by
  show n.parent?.bind some = n.parent?
  cases n.parent? <;> rfl

/-- The parent of a node has its levels but the last one, if that leaves any. -/
theorem parent?_eq_some_iff :
    d.parent? = some a ↔ a.levels ≠ [] ∧ ∃ l, d.levels = a.levels ++ [l] := by
  rw [parent?]
  split
  -- A single level would leave the parent none.
  · next hshort =>
    refine iff_of_false (fun h => nomatch h) ?_
    rintro ⟨ha, l, hd⟩
    rw [hd, List.length_append, List.length_singleton] at hshort
    exact ha (List.length_eq_zero_iff.mp (by omega))
  · next hlong =>
    have hd : d.levels ≠ [] := List.ne_nil_of_length_pos (by omega)
    constructor
    · rintro ⟨⟩
      refine ⟨List.ne_nil_of_length_pos ?_, _, (List.dropLast_concat_getLast hd).symm⟩
      rw [List.length_dropLast]
      omega
    · rintro ⟨-, l, hd⟩
      rw [hd, List.dropLast_concat]

/-- A step up takes the last level off. -/
theorem climb?_eq_some_iff (ha : a.levels ≠ []) :
    d.climb? k = some a ↔ ∃ below, below.length = k ∧ d.levels = a.levels ++ below := by
  -- Induction on the steps; the first one is taken from `d` itself.
  induction k generalizing d with
  | zero =>
    simp only [climb?, Option.some.injEq, List.length_eq_zero_iff, exists_eq_left, List.append_nil]
    exact ⟨congrArg levels, congrArg mk⟩
  | succ k ih =>
    simp only [climb?, Option.bind_eq_some_iff, parent?_eq_some_iff, ih]
    constructor
    · rintro ⟨p, ⟨-, l, hd⟩, below, rfl, hp⟩
      exact ⟨below ++ [l], List.length_append, by rw [hd, hp, List.append_assoc]⟩
    · rintro ⟨below, hk, hd⟩
      -- The first step takes off the last of the levels below `a`.
      obtain ⟨front, l, rfl⟩ := (List.eq_nil_or_concat below).resolve_left
        (List.ne_nil_of_length_pos (by omega))
      rw [List.concat_eq_append] at hk hd
      refine ⟨⟨a.levels ++ front⟩, ⟨by simp [ha], l, by rw [hd, List.append_assoc]⟩, front, ?_, rfl⟩
      simpa using hk

/-- A node has a level more for each step up. -/
theorem length_of_climb? (ha : a.levels ≠ []) (h : d.climb? k = some a) :
    d.levels.length = a.levels.length + k := by
  obtain ⟨below, rfl, hd⟩ := (climb?_eq_some_iff ha).mp h
  rw [hd, List.length_append]

/-! ## Relations by steps up -/

/-- The relation of a node to one above it goes by the number of steps up. -/
theorem relationTo?_eq_some_iff (ha : a.levels ≠ []) :
    d.relationTo? a = some r ↔ ∃ k, d.climb? k = some a ∧ Relation.ofSteps k = r := by
  simp only [climb?_eq_some_iff ha]
  by_cases hp : a.levels <+: d.levels
  · -- There are as many levels of `d` behind those of `a` as there are steps up.
    obtain ⟨below, hd⟩ := hp
    have hrel : d.relationTo? a = some (Relation.ofSteps below.length) := by
      have hpre : a.levels.isPrefixOf d.levels := List.isPrefixOf_iff_prefix.mpr ⟨below, hd⟩
      have hend : a.isEnd = false := by simpa [isEnd] using ha
      rw [relationTo?, hend, hpre, ← hd, List.length_append, Nat.add_sub_cancel_left]
      rcases below.length with _ | _ | k <;> rfl
    -- Where the levels of `a` are in front, what is behind them is fixed.
    rw [hrel, Option.some.injEq]
    constructor
    · rintro rfl
      exact ⟨_, ⟨below, rfl, hd.symm⟩, rfl⟩
    · rintro ⟨_, ⟨below', rfl, hd'⟩, rfl⟩
      rw [List.append_cancel_left (hd.trans hd')]
  -- Where the levels of `a` are not in front, no steps lead there.
  · have hrel : d.relationTo? a = none :=
      Option.not_isSome_iff_eq_none.mp fun h => hp (isSome_relationTo?_iff.mp h).2
    rw [hrel]
    refine iff_of_false (Option.some_ne_none r).symm ?_
    rintro ⟨k, ⟨below, -, hd⟩, -⟩
    exact hp ⟨below, hd.symm⟩

/-- Two nodes are not related if no steps up lead from the one to the other. -/
theorem relationTo?_eq_none_iff (ha : a.levels ≠ []) :
    d.relationTo? a = none ↔ ∀ k, d.climb? k ≠ some a := by
  simp [Option.eq_none_iff_forall_ne_some, relationTo?_eq_some_iff ha]

/-- A node is below another if steps up lead there, one at least. -/
theorem isDescendantOf_iff_climb? (ha : a.levels ≠ []) :
    d.isDescendantOf a ↔ ∃ k, 0 < k ∧ d.climb? k = some a := by
  rw [isDescendantOf_iff]
  -- As many steps up as there are levels below.
  simp only [climb?_eq_some_iff ha]
  constructor
  · rintro ⟨-, hlen, below, hd⟩
    refine ⟨below.length, ?_, below, rfl, hd.symm⟩
    rw [← hd, List.length_append] at hlen
    omega
  · rintro ⟨_, hpos, below, rfl, hd⟩
    refine ⟨ha, ?_, below, hd.symm⟩
    rw [hd, List.length_append]
    omega

/-- A node is below another or the same if steps up lead there, or none are needed. -/
theorem isDescendantOrSelfOf_iff_climb? (ha : a.levels ≠ []) :
    d.isDescendantOrSelfOf a ↔ ∃ k, d.climb? k = some a := by
  rw [isDescendantOrSelfOf, Bool.or_eq_true, beq_iff_eq, isDescendantOf_iff_climb? ha]
  constructor
  · rintro (rfl | ⟨k, -, hup⟩)
    · exact ⟨0, rfl⟩
    · exact ⟨k, hup⟩
  · rintro ⟨k, hup⟩
    cases k with
    | zero => exact .inl (Option.some.inj hup)
    | succ k => exact .inr ⟨k + 1, Nat.succ_pos k, hup⟩

/-- A node is a child of its parent and of no other node. -/
theorem isChildOf_iff_parent? (ha : a.levels ≠ []) : d.isChildOf a ↔ d.parent? = some a := by
  rw [← climb?_one, isChildOf, Bool.and_eq_true, beq_iff_eq, isDescendantOf_iff_climb? ha]
  constructor
  · rintro ⟨hlen, k, hpos, hup⟩
    have hlen' := length_of_climb? ha hup
    obtain rfl : k = 1 := by omega
    exact hup
  · intro hup
    exact ⟨length_of_climb? ha hup, 1, Nat.one_pos, hup⟩

/-- What the relation of `d` to `a` goes by, and what the three tests say of it. -/
structure RelationAgrees (d a : NodeId) : Prop where
  self_iff : d.relationTo? a = some .self ↔ d = a
  child_iff : d.relationTo? a = some .child ↔ d.parent? = some a
  descendant_iff : d.relationTo? a = some .descendant ↔ ∃ k, 2 ≤ k ∧ d.climb? k = some a
  none_iff : d.relationTo? a = none ↔ ∀ k, d.climb? k ≠ some a
  isDescendantOrSelfOf_iff : d.isDescendantOrSelfOf a ↔ (d.relationTo? a).isSome
  isChildOf_iff : d.isChildOf a ↔ d.relationTo? a = some .child
  isDescendantOf_iff : d.isDescendantOf a ↔
    d.relationTo? a = some .child ∨ d.relationTo? a = some .descendant

/-- The relation and the three tests go by the steps up. -/
theorem relationAgrees (d : NodeId) (ha : a.levels ≠ []) : RelationAgrees d a where
  self_iff := by
    simp [relationTo?_eq_some_iff ha, Relation.ofSteps_eq_self_iff, climb?_zero]
  child_iff := by
    simp [relationTo?_eq_some_iff ha, Relation.ofSteps_eq_child_iff, climb?_one]
  descendant_iff := by
    simp [relationTo?_eq_some_iff ha, Relation.ofSteps_eq_descendant_iff, and_comm]
  none_iff := relationTo?_eq_none_iff ha
  isDescendantOrSelfOf_iff := by
    rw [isDescendantOrSelfOf_iff_climb? ha, Option.isSome_iff_ne_none, ne_eq,
      relationTo?_eq_none_iff ha]
    simp
  isChildOf_iff := by
    rw [isChildOf_iff_parent? ha]
    simp [relationTo?_eq_some_iff ha, Relation.ofSteps_eq_child_iff, climb?_one]
  -- A child is a descendant one step below, and the others are further down.
  isDescendantOf_iff := by
    simp only [isDescendantOf_iff_climb? ha, relationTo?_eq_some_iff ha,
      Relation.ofSteps_eq_child_iff, Relation.ofSteps_eq_descendant_iff, ← exists_or, ← and_or_left]
    refine exists_congr fun k => ?_
    rw [and_comm]
    refine and_congr_right fun _ => ?_
    omega

/-! ## Intervals -/

/-- A node is below another or the same if it has the levels of the other in front. -/
theorem isDescendantOrSelfOf_iff_extends (ha : a.levels ≠ []) :
    d.isDescendantOrSelfOf a ↔ a.levels <+: d.levels := by
  rw [(relationAgrees d ha).isDescendantOrSelfOf_iff, isSome_relationTo?_iff, and_iff_right ha]

/-- A node stands in front of all that is below it. -/
theorem lt_of_isDescendantOf (h : d.isDescendantOf a) : a < d := by
  obtain ⟨-, hlen, hp⟩ := isDescendantOf_iff.mp h
  have hle : a ≤ d := isLE_compare_of_extends hp
  refine Std.not_le.mp fun hda => ?_
  rw [Std.le_antisymm hle hda] at hlen
  exact Nat.lt_irrefl _ hlen

/-- The next sibling has the last ordinal greater by one, where that is a word. -/
theorem nextSibling?_eq_some (h : a.nextSibling? = some s) :
    ∃ front l, a.levels = front ++ [l] ∧ s.levels = front ++ [l + 1] ∧
      l.toNat + 1 < UInt32.size := by
  rw [nextSibling?] at h
  split at h
  · cases h
  · next l hlast =>
    obtain ⟨front, hfront⟩ := List.getLast?_eq_some_iff.mp hlast
    split at h
    -- The greatest word has no successor, and the node then no next sibling.
    · next hroom =>
      obtain rfl := Option.some.inj h
      exact ⟨front, l, hfront, by rw [hfront, List.dropLast_concat], hroom⟩
    · cases h

/-- Nothing but a word lies from it up to the next one. -/
theorem eq_iff_between_succ {l : UInt32} (hl : l.toNat + 1 < UInt32.size) (w : UInt32) :
    w = l ↔ (compare l w).isLE ∧ compare w (l + 1) = .lt := by
  have hsucc : (l + 1).toNat = l.toNat + 1 := by
    rw [UInt32.toNat_add]
    exact Nat.mod_eq_of_lt hl
  rw [Std.isLE_compare, Std.compare_eq_lt, UInt32.le_iff_toNat_le, UInt32.lt_iff_toNat_lt, hsucc,
    ← UInt32.toNat_inj]
  omega

/-- A node and what is below it reach up to its next sibling. -/
theorem isDescendantOrSelfOf_iff_lt_nextSibling? (h : a.nextSibling? = some s) :
    x.isDescendantOrSelfOf a ↔ a ≤ x ∧ x < s := by
  obtain ⟨front, l, ha, hs, hroom⟩ := nextSibling?_eq_some h
  rw [isDescendantOrSelfOf_iff_extends (by simp [ha])]
  show _ ↔ (compare a.levels x.levels).isLE ∧ compare x.levels s.levels = .lt
  rw [ha, hs]
  exact concat_prefix_iff_between (eq_iff_between_succ hroom)

/-- How `a` and the nodes below it lie in document order. -/
structure SubtreeIsInterval (a : NodeId) : Prop where
  first : ∀ d : NodeId, d.isDescendantOf a → a < d
  /-- Behind a node that is behind `a` and not below it, there is nothing below `a`. -/
  past : ∀ d x : NodeId, a < d → d.relationTo? a = none → d ≤ x → x.relationTo? a = none
  between : ∀ x y z : NodeId, x.isDescendantOrSelfOf a → z.isDescendantOrSelfOf a →
    x ≤ y → y ≤ z → y.isDescendantOrSelfOf a
  upToSibling : ∀ s, a.nextSibling? = some s →
    ∀ x : NodeId, x.isDescendantOrSelfOf a ↔ a ≤ x ∧ x < s

/-- A node with all that is below it is an interval of document order. -/
theorem subtreeIsInterval (ha : a.levels ≠ []) : SubtreeIsInterval a where
  first _ := lt_of_isDescendantOf
  past _ _ hlt hnone hle := (IsPast.of_le ⟨hlt, hnone⟩ hle).2
  between x y z hx hz hxy hyz := by
    rw [isDescendantOrSelfOf_iff_extends ha] at hx hz ⊢
    have hax : a ≤ x := isLE_compare_of_extends hx
    exact prefix_of_between hz (Std.le_trans hax hxy) hyz
  upToSibling _ h _ := isDescendantOrSelfOf_iff_lt_nextSibling? h

/-- The relation of any node to a node `a` goes by the steps up that lead from the one to the other,
and the three tests agree with it.

Document order is linear, and `a` with what is below it is an interval of it: it starts with `a`,
there is nothing of it behind a node that is past it, and it ends where the next sibling of `a`
stands, if there is one. -/
theorem subtrees_are_intervals {a : NodeId} (ha : a.levels ≠ []) :
    (∀ d, RelationAgrees d a) ∧
      Std.IsLinearOrder NodeId ∧ Std.LawfulOrderLT NodeId ∧ SubtreeIsInterval a :=
  ⟨fun d => relationAgrees d ha, inferInstance, inferInstance, subtreeIsInterval ha⟩

/-- What is below `1.2` ends in front of `1.3`, and what follows that is not below `1.2`. -/
theorem subtrees_are_intervals_second :
    (⟨[1, 2]⟩ : NodeId).levels ≠ [] ∧
      relationTo? ⟨[1, 2, 7, 4]⟩ ⟨[1, 2]⟩ = some .descendant ∧
      isDescendantOf ⟨[1, 2, 7, 4]⟩ ⟨[1, 2]⟩ ∧
      (⟨[1, 2]⟩ : NodeId) < ⟨[1, 2, 7, 4]⟩ ∧
      relationTo? ⟨[2]⟩ ⟨[1, 2]⟩ = none ∧
      ∀ x : NodeId, x.isDescendantOrSelfOf ⟨[1, 2]⟩ ↔ (⟨[1, 2]⟩ : NodeId) ≤ x ∧ x < ⟨[1, 3]⟩ := by
  have ha : (⟨[1, 2]⟩ : NodeId).levels ≠ [] := by decide
  obtain ⟨hagrees, -, -, hinterval⟩ := subtrees_are_intervals ha
  have hrel : relationTo? ⟨[1, 2, 7, 4]⟩ ⟨[1, 2]⟩ = some .descendant :=
    (hagrees _).descendant_iff.mpr ⟨2, Nat.le_refl 2, by decide⟩
  have hbelow : isDescendantOf ⟨[1, 2, 7, 4]⟩ ⟨[1, 2]⟩ :=
    (hagrees _).isDescendantOf_iff.mpr (.inr hrel)
  exact ⟨ha, hrel, hbelow, hinterval.first _ hbelow,
    hinterval.past ⟨[1, 3]⟩ ⟨[2]⟩ (by decide) (by decide) (by decide),
    hinterval.upToSibling ⟨[1, 3]⟩ (by decide)⟩

end NodeId

end XmlIndex
