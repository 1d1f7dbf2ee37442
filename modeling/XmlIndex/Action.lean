import XmlIndex.Error

/-! # Actions

An action reads and changes a state and either answers or fails.  A failure keeps the state
as it is at that moment, because what an operation did before it failed is part of what it
does: bytes it has consumed, blocks it has written.

`bind_eq_ok_iff` and `bind_eq_error_iff` say what a sequence of two actions does;
`Action.on` runs an action on a part of a larger state. -/

namespace XmlIndex

/-- An action on the state `σ`. -/
abbrev Action (σ α : Type) := EStateM Error σ α

namespace Action

variable {σ τ α β : Type}

theorem bind_eq_ok_iff {x : Action σ α} {f : α → Action σ β} {s s'' : σ} {b : β} :
    (x >>= f) s = .ok b s'' ↔ ∃ a s', x s = .ok a s' ∧ f a s' = .ok b s'' := by
  change EStateM.bind x f s = _ ↔ _
  simp only [EStateM.bind]
  cases h : x s with
  | ok a s' =>
    constructor
    · exact fun hf => ⟨a, s', rfl, hf⟩
    · rintro ⟨_, _, ⟨rfl, rfl⟩, hf⟩
      exact hf
  | error e s' => simp

theorem bind_eq_error_iff {x : Action σ α} {f : α → Action σ β} {s s'' : σ} {e : Error} :
    (x >>= f) s = .error e s'' ↔
      x s = .error e s'' ∨ ∃ a s', x s = .ok a s' ∧ f a s' = .error e s'' := by
  change EStateM.bind x f s = _ ↔ _
  simp only [EStateM.bind]
  cases h : x s with
  -- The first action has gone through, so it is the second one that fails.
  | ok a s' =>
    constructor
    · exact fun hf => .inr ⟨a, s', rfl, hf⟩
    · rintro (hx | ⟨_, _, ⟨rfl, rfl⟩, hf⟩)
      · cases hx
      · exact hf
  | error e' s' => simp

/-- The state an action leaves behind. -/
def stateOf : EStateM.Result Error σ α → σ
  | .ok _ s => s
  | .error _ s => s

/-- The answer of an action, without the state. -/
def outcomeOf : EStateM.Result Error σ α → Except Error α
  | .ok a _ => .ok a
  | .error e _ => .error e

/-- Runs an action on a part of the state. -/
def on (part : σ → τ) (put : τ → σ → σ) (x : Action τ α) : Action σ α := fun s =>
  match x (part s) with
  | .ok a t => .ok a (put t s)
  | .error e t => .error e (put t s)

/-- An answer or failure that leaves the state alone. -/
def ofExcept : Except Error α → Action σ α
  | .ok a => pure a
  | .error e => throw e

end Action

end XmlIndex
