import XmlIndex.Proofs.ActionSteps
import XmlIndex.Proofs.StoreCalls

/-! # Two actions side by side

`Action.report` is what a caller is told of an action: the answer, or the class of the failure.
`Action.Agree` compares what two actions come to, from states that need not be the same: both
answer, with related answers, or both fail, for causes of one class, and the states they leave
behind are related again.  Causes can be tolerated; a second action that fails for one of them
agrees with everything.

Agreement goes through the ways in which actions are put together (`Action.Agree.bind`,
`Action.Agree.on`, `Store.agree_locked`), so that two runs of one action are compared call by
call. -/

namespace XmlIndex

namespace Action

variable {σ σ' τ τ' α α' β β' : Type}

/-- What a caller is told: the answer, or the class of the failure. -/
def report : EStateM.Result Error σ α → Except Error.Kind α
  | .ok a _ => .ok a
  | .error e _ => .error e.kind

/-- Both have answered, with related answers, or both have failed, for causes of one class; the
states are related.  Of a second action that has failed for a tolerated cause nothing is
asked. -/
inductive Agree (tolerated : Error → Prop) (R : σ → σ' → Prop) (P : α → α' → Prop) :
    EStateM.Result Error σ α → EStateM.Result Error σ' α' → Prop
  | ok {a : α} {a' : α'} {s : σ} {s' : σ'} (answers : P a a') (states : R s s') :
      Agree tolerated R P (.ok a s) (.ok a' s')
  | error {e e' : Error} {s : σ} {s' : σ'} (kinds : e.kind = e'.kind) (states : R s s') :
      Agree tolerated R P (.error e s) (.error e' s')
  | tolerated {r : EStateM.Result Error σ α} {e' : Error} {s' : σ'} (cause : tolerated e') :
      Agree tolerated R P r (.error e' s')

namespace Agree

variable {tolerated : Error → Prop} {R : σ → σ' → Prop} {P : α → α' → Prop}
  {Q : β → β' → Prop}

/-- What an action comes to agrees with itself. -/
theorem refl {R : σ → σ → Prop} (h : ∀ s, R s s) (r : EStateM.Result Error σ α) :
    Agree tolerated R Eq r r := by
  cases r with
  | ok a s => exact .ok rfl (h s)
  | error e s => exact .error rfl (h s)

/-- Actions agree if their first parts do, and what follows them does from related states. -/
theorem bind {x : Action σ α} {x' : Action σ' α'} {f : α → Action σ β} {f' : α' → Action σ' β'}
    {s : σ} {s' : σ'} (hx : Agree tolerated R P (x s) (x' s'))
    (hf : ∀ a a' t t', P a a' → R t t' → Agree tolerated R Q (f a t) (f' a' t')) :
    Agree tolerated R Q ((x >>= f) s) ((x' >>= f') s') := by
  change Agree tolerated R Q (EStateM.bind x f s) (EStateM.bind x' f' s')
  unfold EStateM.bind
  -- What follows begins only where both first parts succeed.
  generalize x s = r, x' s' = r' at hx
  cases hx with
  | ok answers states => exact hf _ _ _ _ answers states
  | error kinds states => exact .error kinds states
  | tolerated cause => exact .tolerated cause

/-- Actions on parts of two states agree if they do so on the parts. -/
theorem on {S : τ → τ' → Prop} {part : σ → τ} {part' : σ' → τ'} {put : τ → σ → σ}
    {put' : τ' → σ' → σ'} {x : Action τ α} {x' : Action τ' α'} {s : σ} {s' : σ'}
    (hx : Agree tolerated S P (x (part s)) (x' (part' s')))
    (hput : ∀ t t', S t t' → R (put t s) (put' t' s')) :
    Agree tolerated R P (Action.on part put x s) (Action.on part' put' x' s') := by
  unfold Action.on
  generalize x (part s) = r, x' (part' s') = r' at hx
  cases hx with
  | ok answers states => exact .ok answers (hput _ _ states)
  | error kinds states => exact .error kinds (hput _ _ states)
  | tolerated cause => exact .tolerated cause

/-- One answer or failure, in two states. -/
theorem ofExcept (x : Except Error α) {s : σ} {s' : σ'} (h : R s s') :
    Agree tolerated R Eq (Action.ofExcept x s) (Action.ofExcept x s') := by
  cases x with
  | ok a => exact .ok rfl h
  | error e => exact .error rfl h

/-- If nothing is tolerated, a caller is told the same. -/
theorem report_eq {r : EStateM.Result Error σ α} {r' : EStateM.Result Error σ' α}
    (h : Agree (fun _ => False) R Eq r r') : report r = report r' := by
  cases h with
  | ok answers states => rw [report, report, answers]
  | error kinds states => rw [report, report, kinds]
  | tolerated cause => exact cause.elim

/-- If the second action does not fail for a tolerated cause, a caller is told the same, and the
states are related. -/
theorem outcomeOf_eq {r : EStateM.Result Error σ α} {r' : EStateM.Result Error σ' α}
    (h : Agree tolerated R Eq r r') (hr' : ∀ e, outcomeOf r' = .error e → ¬ tolerated e) :
    (outcomeOf r').mapError Error.kind = (outcomeOf r).mapError Error.kind ∧
      R (stateOf r) (stateOf r') := by
  cases h with
  | ok answers states => exact ⟨congrArg Except.ok answers.symm, states⟩
  | error kinds states => exact ⟨congrArg Except.error kinds.symm, states⟩
  | tolerated cause => exact absurd cause (hr' _ rfl)

end Agree

end Action

namespace Store

open XmlIndex.Action

variable {s s' : Store} {tolerated : Error → Prop} {R : Store → Store → Prop}

/-- Where two locks can be taken alike, actions with the lock agree if they do once it is
taken. -/
theorem agree_locked {α α' : Type} {P : α → α' → Prop} {mode : LockMode} {body : Action Store α}
    {body' : Action Store α'} (hfree : s'.isFree mode = s.isFree mode) (h : R s s')
    (hbody : s.isFree mode → Agree tolerated R P (body s) (body' s')) :
    Agree tolerated R P (locked mode body s) (locked mode body' s') := by
  -- Both locks are refused, or both bodies run.
  cases hs : s.isFree mode with
  | true =>
    rw [locked_of_isFree hs, locked_of_isFree (hfree.trans hs)]
    exact hbody hs
  | false =>
    rw [locked_of_not_isFree hs, locked_of_not_isFree (hfree.trans hs)]
    exact .error rfl h

end Store

end XmlIndex
