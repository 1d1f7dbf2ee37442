import XmlIndex.Block.Entry
import XmlIndex.Proofs.DocumentOrder

/-! # Arranged entries

Sorting in document order is stable: the elements with one node id keep their order
(`filter_mergeSort`).  In a list that ascends strictly a node id stands for one element, so
such a list is known from what is found under every id.

Entries are arranged by sorting them and keeping the first of those with one id.  The result
ascends strictly and has under every id the entry that came first
(`Entry.ascending_arrange`, `Entry.find?_arrange`). -/

namespace XmlIndex

/-! ## Lists in document order -/

section InOrder

variable {α : Type} {node : α → NodeId}

/-- The comparison of nodes is transitive. -/
theorem isLE_compare_trans (a b c : α) (hab : (compare (node a) (node b)).isLE)
    (hbc : (compare (node b) (node c)).isLE) : (compare (node a) (node c)).isLE :=
  Std.TransCmp.isLE_trans hab hbc

/-- Any two nodes compare. -/
theorem isLE_compare_total (a b : α) :
    (compare (node a) (node b)).isLE || (compare (node b) (node a)).isLE := by
  rw [Std.OrientedOrd.eq_swap (a := node b)]
  cases compare (node a) (node b) <;> decide

/-- What is sorted ascends. -/
theorem pairwise_mergeSort (node : α → NodeId) (l : List α) :
    (l.mergeSort fun a b => (compare (node a) (node b)).isLE).Pairwise
      fun a b => node a ≤ node b :=
  List.pairwise_mergeSort isLE_compare_trans isLE_compare_total l

/-- Elements with one node id keep their order. -/
theorem filter_mergeSort (node : α → NodeId) (l : List α) (n : NodeId) :
    (l.mergeSort fun a b => (compare (node a) (node b)).isLE).filter (node · == n) =
      l.filter (node · == n) := by
  -- Among themselves they are in order already, so the sorted list has them as a sublist.
  have hself : (l.filter (node · == n)).Pairwise fun a b => (compare (node a) (node b)).isLE := by
    rw [List.pairwise_filter]
    refine List.pairwise_of_forall fun a b ha hb => ?_
    rw [beq_iff_eq.mp ha, beq_iff_eq.mp hb, Std.ReflOrd.compare_self]
    rfl
  have hsub := (List.sublist_mergeSort isLE_compare_trans isLE_compare_total hself
    List.filter_sublist).filter (node · == n)
  rw [List.filter_filter] at hsub
  simp only [Bool.and_self] at hsub
  have hperm := (List.mergeSort_perm l fun a b => (compare (node a) (node b)).isLE).filter
    (node · == n)
  exact (hsub.eq_of_length hperm.length_eq.symm).symm

/-- In a list that ascends strictly every element is the one found under its id. -/
theorem mem_iff_find?_of_ascending {l : List α} (h : l.Pairwise fun a b => node a < node b)
    {a : α} : a ∈ l ↔ l.find? (node · == node a) = some a := by
  refine ⟨fun ha => ?_, List.mem_of_find?_eq_some⟩
  induction l with
  | nil => cases ha
  | cons b l ih =>
    obtain ⟨hb, hl⟩ := List.pairwise_cons.mp h
    -- Whatever is behind the first element has another id.
    rcases List.mem_cons.mp ha with rfl | ha
    · rw [List.find?_cons_of_pos (by simp)]
    · have hne : node b ≠ node a := fun he => Std.lt_irrefl (he ▸ hb a ha)
      rw [List.find?_cons_of_neg (by simp [hne])]
      exact ih hl ha

/-- In a list that ascends strictly at most one element has a node id. -/
theorem filter_of_ascending {l : List α} (h : l.Pairwise fun a b => node a < node b)
    (n : NodeId) : l.filter (node · == n) = (l.find? (node · == n)).toList := by
  induction l with
  | nil => rfl
  | cons b l ih =>
    obtain ⟨hb, hl⟩ := List.pairwise_cons.mp h
    -- If the first element has the id, no later one has.
    by_cases hn : node b = n
    · have hnil : l.filter (node · == n) = [] := by
        refine List.filter_eq_nil_iff.mpr fun a ha he => ?_
        exact Std.lt_irrefl ((hn.trans (beq_iff_eq.mp he).symm) ▸ hb a ha)
      rw [List.filter_cons_of_pos (by simp [hn]), hnil, List.find?_cons_of_pos (by simp [hn])]
      rfl
    · rw [List.filter_cons_of_neg (by simp [hn]), List.find?_cons_of_neg (by simp [hn]), ih hl]

end InOrder

namespace Entry

/-! ## Dropping repeats -/

/-- Without repeats what ascends does so strictly. -/
theorem ascending_dropRepeatsFrom {last : NodeId} {es : List Entry}
    (hlast : ∀ e ∈ es, last ≤ e.node) (hes : es.Pairwise fun a b => a.node ≤ b.node) :
    (∀ e ∈ dropRepeatsFrom last es, last < e.node) ∧
      (dropRepeatsFrom last es).Pairwise fun a b => a.node < b.node := by
  induction es generalizing last with
  | nil => simp [dropRepeatsFrom]
  | cons e es ih =>
    obtain ⟨hle, hlast⟩ := List.forall_mem_cons.mp hlast
    obtain ⟨he, hes⟩ := List.pairwise_cons.mp hes
    rw [dropRepeatsFrom]
    split
    -- `e` is a repeat and left out; `last` is still the last id.
    · exact ih hlast hes
    · next hne =>
      have hlt : last < e.node := Std.lt_of_le_of_ne hle fun h => hne h.symm
      obtain ⟨hgt, hasc⟩ := ih he hes
      refine ⟨List.forall_mem_cons.mpr ⟨hlt, fun e' he' => ?_⟩, List.pairwise_cons.mpr ⟨hgt, hasc⟩⟩
      exact Std.lt_trans hlt (hgt e' he')

/-- Dropping repeats keeps the first element with every other id. -/
theorem find?_dropRepeatsFrom {last n : NodeId} (es : List Entry) (hn : n ≠ last) :
    (dropRepeatsFrom last es).find? (·.node == n) = es.find? (·.node == n) := by
  induction es generalizing last with
  | nil => rfl
  | cons e es ih =>
    rw [dropRepeatsFrom]
    split
    -- A repeat of the last id is none with this one.
    · next he => rw [ih hn, List.find?_cons_of_neg (by simp [he, hn.symm])]
    · by_cases he : e.node = n
      · rw [List.find?_cons_of_pos (by simp [he]), List.find?_cons_of_pos (by simp [he])]
      · rw [List.find?_cons_of_neg (by simp [he]), List.find?_cons_of_neg (by simp [he])]
        exact ih fun h => he h.symm

/-- What ascends does so strictly once its repeats are dropped. -/
theorem ascending_dropRepeats {es : List Entry} (h : es.Pairwise fun a b => a.node ≤ b.node) :
    (dropRepeats es).Pairwise fun a b => a.node < b.node := by
  cases es with
  | nil => exact .nil
  | cons e es =>
    obtain ⟨he, hes⟩ := List.pairwise_cons.mp h
    exact List.pairwise_cons.mpr (ascending_dropRepeatsFrom he hes)

/-- Dropping repeats keeps the first element with every id. -/
theorem find?_dropRepeats (es : List Entry) (n : NodeId) :
    (dropRepeats es).find? (·.node == n) = es.find? (·.node == n) := by
  cases es with
  | nil => rfl
  | cons e es =>
    rw [dropRepeats]
    by_cases he : e.node = n
    · rw [List.find?_cons_of_pos (by simp [he]), List.find?_cons_of_pos (by simp [he])]
    · rw [List.find?_cons_of_neg (by simp [he]), List.find?_cons_of_neg (by simp [he])]
      exact find?_dropRepeatsFrom es fun h => he h.symm

/-! ## Arranging -/

/-- Arranged entries ascend strictly. -/
theorem ascending_arrange (es : List Entry) :
    (arrange es).Pairwise fun a b => a.node < b.node :=
  ascending_dropRepeats (pairwise_mergeSort Entry.node es)

/-- Of the entries with one id the first is kept. -/
theorem find?_arrange (es : List Entry) (n : NodeId) :
    (arrange es).find? (·.node == n) = es.find? (·.node == n) := by
  have hfilter := filter_mergeSort Entry.node es n
  rw [arrange, find?_dropRepeats, ← List.head?_filter, ← List.head?_filter, sort, hfilter]

/-- Arranged entries were there before. -/
theorem mem_of_mem_arrange {es : List Entry} {e : Entry} (h : e ∈ arrange es) : e ∈ es := by
  -- Arranging keeps what is found under every id, and only that.
  rw [mem_iff_find?_of_ascending (ascending_arrange es), find?_arrange] at h
  exact List.mem_of_find?_eq_some h

/-- Every node is still there. -/
theorem exists_mem_arrange {es : List Entry} {e : Entry} (h : e ∈ es) :
    ∃ e' ∈ arrange es, e'.node = e.node := by
  have hs : (es.find? (·.node == e.node)).isSome :=
    List.find?_isSome.mpr ⟨e, h, by simp⟩
  rw [← find?_arrange] at hs
  obtain ⟨e', he'⟩ := Option.isSome_iff_exists.mp hs
  exact ⟨e', List.mem_of_find?_eq_some he', by simpa using List.find?_some he'⟩

/-- Arranging leaves something of every list but the empty one. -/
theorem arrange_ne_nil {es : List Entry} (h : es ≠ []) : arrange es ≠ [] := by
  obtain ⟨e, he⟩ := List.exists_mem_of_ne_nil es h
  obtain ⟨e', he', _⟩ := exists_mem_arrange he
  exact List.ne_nil_of_mem he'

end Entry

end XmlIndex
