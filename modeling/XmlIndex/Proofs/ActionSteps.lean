import XmlIndex.Action

/-! # What an action does, step by step

Inversion lemmas for the ways in which actions are put together, beside those for sequences
of two actions: an answer or failure without a state, and an action on a part of the state. -/

namespace XmlIndex

namespace Action

variable {σ τ α β : Type}

/-- Reading the state does not change it. -/
theorem get_bind (f : σ → Action σ β) (s : σ) : (get >>= f : Action σ β) s = f s s := rfl

/-- After a change the rest goes on in the new state. -/
theorem modify_bind (g : σ → σ) (f : Unit → Action σ β) (s : σ) :
    (modify g >>= f : Action σ β) s = f () (g s) := rfl

/-- After a success the rest goes on from there. -/
theorem bind_of_ok {x : Action σ α} {f : α → Action σ β} {s s' : σ} {a : α}
    (h : x s = .ok a s') : (x >>= f) s = f a s' := by
  change EStateM.bind x f s = _
  rw [EStateM.bind, h]

/-- After a failure there is no rest. -/
theorem bind_of_error {x : Action σ α} {f : α → Action σ β} {s s' : σ} {e : Error}
    (h : x s = .error e s') : (x >>= f) s = .error e s' := by
  change EStateM.bind x f s = _
  rw [EStateM.bind, h]

/-- Only the answer of a success is mapped. -/
theorem map_eq_ok_iff {f : α → β} {x : Action σ α} {s s' : σ} {b : β} :
    (f <$> x) s = .ok b s' ↔ ∃ a, x s = .ok a s' ∧ f a = b := by
  change EStateM.map f x s = _ ↔ _
  rw [EStateM.map]
  cases x s with
  | ok a t =>
    constructor
    · intro h
      obtain ⟨rfl, rfl⟩ := EStateM.Result.ok.inj h
      exact ⟨a, rfl, rfl⟩
    · rintro ⟨_, h, rfl⟩
      obtain ⟨rfl, rfl⟩ := EStateM.Result.ok.inj h
      rfl
  | error e t => simp

/-- A failure is not mapped. -/
theorem map_eq_error_iff {f : α → β} {x : Action σ α} {s s' : σ} {e : Error} :
    (f <$> x) s = .error e s' ↔ x s = .error e s' := by
  change EStateM.map f x s = _ ↔ _
  rw [EStateM.map]
  cases x s with
  | ok a t => simp
  | error e' t => simp

/-- An action whose answer is known has its answer and its state. -/
theorem eq_ok_of_outcomeOf {r : EStateM.Result Error σ α} {a : α} (h : outcomeOf r = .ok a) :
    r = .ok a (stateOf r) := by
  cases r with
  | ok b s =>
    obtain rfl := Except.ok.inj h
    rfl
  | error e s => cases h

/-- A call whose outcome is a failure has failed. -/
theorem eq_error_of_outcomeOf {r : EStateM.Result Error σ α} {e : Error}
    (h : outcomeOf r = .error e) : r = .error e (stateOf r) := by
  cases r with
  | ok b s => cases h
  | error e' s =>
    obtain rfl := Except.error.inj h
    rfl

/-- An answer without a state leaves the state. -/
theorem ofExcept_eq_ok_iff {x : Except Error α} {s s' : σ} {a : α} :
    (ofExcept x : Action σ α) s = .ok a s' ↔ x = .ok a ∧ s' = s := by
  cases x with
  | ok b =>
    constructor
    · intro h
      obtain ⟨rfl, rfl⟩ := EStateM.Result.ok.inj h
      exact ⟨rfl, rfl⟩
    · rintro ⟨h, rfl⟩
      obtain rfl := Except.ok.inj h
      rfl
  | error e =>
    constructor
    · intro h
      cases h
    · rintro ⟨h, _⟩
      cases h

/-- A failure without a state leaves the state. -/
theorem ofExcept_eq_error_iff {x : Except Error α} {s s' : σ} {e : Error} :
    (ofExcept x : Action σ α) s = .error e s' ↔ x = .error e ∧ s' = s := by
  cases x with
  | ok b =>
    constructor
    · intro h
      cases h
    · rintro ⟨h, _⟩
      cases h
  | error e' =>
    constructor
    · intro h
      obtain ⟨rfl, rfl⟩ := EStateM.Result.error.inj h
      exact ⟨rfl, rfl⟩
    · rintro ⟨h, rfl⟩
      obtain rfl := Except.error.inj h
      rfl

/-- An action on a part succeeds there and puts the part back. -/
theorem on_eq_ok_iff {part : σ → τ} {put : τ → σ → σ} {x : Action τ α} {s s' : σ} {a : α} :
    on part put x s = .ok a s' ↔ ∃ t, x (part s) = .ok a t ∧ put t s = s' := by
  rw [on]
  cases x (part s) with
  | ok b t => simp [and_assoc]
  | error e t => simp

/-- An action on a part fails there and puts the part back all the same. -/
theorem on_eq_error_iff {part : σ → τ} {put : τ → σ → σ} {x : Action τ α} {s s' : σ}
    {e : Error} :
    on part put x s = .error e s' ↔ ∃ t, x (part s) = .error e t ∧ put t s = s' := by
  rw [on]
  cases x (part s) with
  | ok b t => simp
  | error e t => simp [and_assoc]

end Action

end XmlIndex
