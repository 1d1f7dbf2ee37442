import XmlIndex.Wire

/-! # Stored values are read back

A reader takes a value off the front of the bytes if it answers it for what was written of it,
whatever follows (`Wire.Takes`).  A reader that answers the same with more bytes behind
(`Wire.IsLocal`) cannot answer anything for a part of them (`Wire.Takes.eq_none_of_cut`).  All
readers of stored values are of this kind. -/

namespace XmlIndex

namespace Bytes

/-- A text is decoded from its bytes. -/
theorem decodeText?_ofText (s : String) : decodeText? (ofText s) = some s := by
  simp only [decodeText?, ofText, Array.toArray_toList, String.fromUTF8?,
    String.toUTF8_eq_toByteArray, dif_pos s.isValidUTF8]
  rfl

/-- Different texts have different bytes. -/
theorem ofText_inj {s s' : String} (h : ofText s = ofText s') : s = s' := by
  have htext := decodeText?_ofText s
  rw [h, decodeText?_ofText] at htext
  exact (Option.some.inj htext).symm

end Bytes

namespace Wire

/-- The reader takes what was written off the front, whatever follows. -/
def Takes {α : Type} (read : Reader α) (value : α) (written : Bytes) : Prop :=
  ∀ rest, read (written ++ rest) = some (value, rest)

variable {α β : Type} {read : Reader α} {a : α} {written : Bytes}

/-- One value after the other is taken off the front. -/
theorem Takes.bind {next : α → Reader β} {b : β} {written' : Bytes} (h : Takes read a written)
    (h' : Takes (next a) b written') : Takes (read >>= next) b (written ++ written') := by
  intro rest
  rw [List.append_assoc]
  exact (congrArg (Option.bind · _) (h (written' ++ rest))).trans (h' rest)

/-- To answer without reading takes nothing off. -/
theorem takes_pure (a : α) : Takes (pure a) a [] := fun _ => rfl

/-- A number that fits is read back from its bytes. -/
theorem takes_word {width n : Nat} (h : n < Bytes.bound width) :
    Takes (word width) n (Bytes.littleEndian width n) := word_append width n h

/-- An answer that is there already takes nothing off. -/
theorem takes_lift {x : Option α} (h : x = some a) : Takes (liftM x) a [] := by
  subst h
  exact fun _ => rfl

/-- Bytes are read back behind their length, if that fits into eight bytes. -/
theorem takes_bytes {bs : Bytes} (h : bs.length < Bytes.bound 8) : Takes bytes bs (putBytes bs) :=
  bytes_append bs h

/-- A text is read back, if its length fits into eight bytes. -/
theorem takes_text {s : String} (h : (Bytes.ofText s).length < Bytes.bound 8) :
    Takes text s (putText s) := by
  rw [← List.append_nil (putText s)]
  exact (takes_bytes h).bind (takes_lift (Bytes.decodeText?_ofText s))

/-- Values are read back one after the other. -/
theorem takes_times {put : α → Bytes} {l : List α} (h : ∀ a ∈ l, Takes read a (put a)) :
    Takes (times read l.length) l (l.flatMap put) := by
  induction l with
  | nil => exact takes_pure []
  | cons a l ih =>
    obtain ⟨ha, hl⟩ := List.forall_mem_cons.mp h
    rw [List.flatMap_cons, ← List.append_nil (l.flatMap put)]
    exact ha.bind ((ih hl).bind (takes_pure (a :: l)))

/-- A list is read back behind its length, if that fits into eight bytes. -/
theorem takes_list {put : α → Bytes} {l : List α} (hlength : l.length < Bytes.bound 8)
    (h : ∀ a ∈ l, Takes read a (put a)) : Takes (list read) l (putList put l) :=
  (takes_word hlength).bind (takes_times h)

/-! ## Bytes that end early -/

/-- With more bytes behind, the reader answers the same and leaves them as well. -/
def IsLocal {α : Type} (read : Reader α) : Prop :=
  ∀ bs a rest, read bs = some (a, rest) → ∀ more, read (bs ++ more) = some (a, rest ++ more)

/-- Where the bytes of a value end early the value is not read, nor another. -/
theorem Takes.eq_none_of_cut (h : Takes read a written) (hlocal : IsLocal read) {n : Nat}
    (hn : n < written.length) : read (written.take n) = none := by
  cases hr : read (written.take n) with
  | none => rfl
  | some result =>
    have hall := hlocal _ _ _ hr (written.drop n)
    have htaken := h []
    rw [List.append_nil] at htaken
    rw [List.take_append_drop, htaken] at hall
    -- What was cut off would have been left.
    have hleft := (Prod.mk.inj (Option.some.inj hall)).2
    have hdrop := congrArg List.length hleft
    rw [List.length_append, List.length_drop, List.length_nil] at hdrop
    omega

/-- To answer without reading does not depend on what follows. -/
theorem isLocal_pure (a : α) : IsLocal (pure a) := by
  intro bs a' rest h more
  obtain ⟨rfl, rfl⟩ := Prod.mk.inj (Option.some.inj h)
  rfl

/-- Local readers in sequence are local. -/
theorem IsLocal.bind {next : α → Reader β} (h : IsLocal read) (h' : ∀ a, IsLocal (next a)) :
    IsLocal (read >>= next) := by
  intro bs b rest hb more
  obtain ⟨⟨a, rest'⟩, ha, hb⟩ := Option.bind_eq_some_iff.mp hb
  exact Option.bind_eq_some_iff.mpr ⟨(a, rest' ++ more), h _ _ _ ha more, h' a _ _ _ hb more⟩

/-- Taking a number of bytes is local. -/
theorem isLocal_take (n : Nat) : IsLocal (take n) := by
  intro bs a rest h more
  rw [take] at h ⊢
  split at h
  · next hn =>
    obtain ⟨rfl, rfl⟩ := Prod.mk.inj (Option.some.inj h)
    rw [if_pos (by rw [List.length_append]; omega), List.take_append_of_le_length hn,
      List.drop_append_of_le_length hn]
  · cases h

/-- Reading a number is local. -/
theorem isLocal_word (width : Nat) : IsLocal (word width) :=
  (isLocal_take width).bind fun _ => isLocal_pure _

/-- Reading bytes behind their length is local. -/
theorem isLocal_bytes : IsLocal bytes := (isLocal_word 8).bind isLocal_take

/-- Reading a number of values is local. -/
theorem isLocal_times (h : IsLocal read) (n : Nat) : IsLocal (times read n) := by
  induction n with
  | zero => exact isLocal_pure []
  | succ n ih => exact h.bind fun _ => ih.bind fun _ => isLocal_pure _

/-- Reading a list is local. -/
theorem isLocal_list (h : IsLocal read) : IsLocal (list read) :=
  (isLocal_word 8).bind fun n => isLocal_times h n

end Wire

end XmlIndex
