import Mathlib.Data.List.Induction
import XmlIndex.Proofs.FlushResume

/-! # Reports of progress

What is noticed of a counted operation is counted in whole steps: at any time the state has kept the
greatest number of steps that were completed when it was asked (`Progress.Kept`).  A call of
`changed` says yes if and only if more are completed now, so it does so once for each step at most,
however the value goes up and down (`Progress.noticesSteps`).

A flush counts the names it writes, so its reports are those that counting makes
(`Index.counts_flushNames`), with the report of its end behind them
(`Index.reports_once_per_step`).

Numbers are without bound here.  The sum of what is kept and one step is at most the step or 200, so
it is a word as long as the step is one. -/

namespace XmlIndex

namespace Progress

/-! ## Calls -/

/-- The calls on a counted operation. -/
inductive Call where
  | setValue (value : Nat)
  | changed
  | finish
  deriving DecidableEq

/-- The operation after a call. -/
def call (p : Progress) : Call → Progress
  | .setValue value => p.setValue value
  | .changed => p.changed.2
  | .finish => p.finish

/-- The operation after some calls. -/
def after (p : Progress) (calls : List Call) : Progress := calls.foldl call p

/-- The states in which some calls have noticed a change. -/
def noticed (p : Progress) : List Call → List Progress
  | [] => []
  | .changed :: calls =>
    if p.changed.1 then p.changed.2 :: noticed p.changed.2 calls else noticed p.changed.2 calls
  | c :: calls => noticed (p.call c) calls

/-- The number of whole steps that are completed. -/
def stepsDone (p : Progress) : Nat := p.percent / p.step

variable {p : Progress} {calls : List Call} {k : Nat}

/-- More calls go on from where the first ones ended. -/
theorem after_append (p : Progress) (calls more : List Call) :
    p.after (calls ++ more) = (p.after calls).after more := by
  rw [after, List.foldl_append, ← after, ← after]

/-- What more calls notice stands behind what the first ones noticed. -/
theorem noticed_append (p : Progress) (calls more : List Call) :
    p.noticed (calls ++ more) = p.noticed calls ++ (p.after calls).noticed more := by
  -- The state after the first calls is what the others are asked in.
  induction calls generalizing p with
  | nil => rfl
  | cons c calls ih =>
    cases c with
    | setValue value => exact ih _
    | finish => exact ih _
    | changed =>
      rw [List.cons_append, noticed, noticed, ih]
      split <;> rfl

/-- Asking for a change is seen by nobody but the next one who asks. -/
theorem changed_snd_eq (p : Progress) :
    p.changed.2 = { p with reported := p.changed.2.reported } := by
  rw [changed]
  split <;> rfl

/-- No more than 100 percent is ever done. -/
theorem percent_le (h : p.value ≤ p.max) : p.percent ≤ 100 := by
  rw [percent]
  split
  · exact Nat.le_refl _
  · exact Nat.div_le_of_le_mul (Nat.mul_le_mul_right 100 h)

/-! ## Steps -/

/-- The operation has kept `k` completed steps. -/
structure Kept (p : Progress) (k : Nat) : Prop where
  step_pos : 0 < p.step
  value_le : p.value ≤ p.max
  reported_eq : p.reported = p.step * k
  le : k ≤ 100 / p.step

namespace Kept

/-- At the start no step is kept. -/
theorem start (max step : Nat) : (start max step).Kept 0 where
  step_pos := Nat.le_max_right step 1
  value_le := Nat.zero_le max
  reported_eq := rfl
  le := Nat.zero_le _

/-- A change is noticed if more steps are completed than were kept. -/
theorem changed_iff (h : p.Kept k) : p.changed.1 = true ↔ k < p.stepsDone := by
  rw [stepsDone, Nat.lt_iff_add_one_le, Nat.le_div_iff_mul_le h.step_pos, Nat.add_mul, Nat.one_mul,
    Nat.mul_comm k, ← h.reported_eq, changed]
  split <;> simp_all

/-- A call of `changed` keeps what is completed now, if that is more. -/
theorem changed (h : p.Kept k) : p.changed.2.Kept (Max.max k p.stepsDone) := by
  have hiff := h.changed_iff
  rw [Progress.changed] at hiff ⊢
  split
  -- More is completed, and the step that is reported is the last whole one.
  · next hmore =>
    rw [if_pos hmore] at hiff
    rw [Nat.max_eq_right (Nat.le_of_lt (hiff.mp rfl))]
    exact {
      step_pos := h.step_pos
      value_le := h.value_le
      reported_eq := by
        show p.percent - p.percent % p.step = p.step * p.stepsDone
        rw [stepsDone]
        have := Nat.div_add_mod p.percent p.step
        omega
      -- No more than all can be completed.
      le := Nat.div_le_div_right (percent_le h.value_le) }
  -- No more is completed than was kept.
  · next hmore =>
    rw [if_neg hmore] at hiff
    have hle : p.stepsDone ≤ k := Nat.not_lt.mp fun hlt => by cases hiff.mpr hlt
    rwa [Nat.max_eq_left hle]

/-- Setting a value keeps what was kept. -/
theorem setValue (h : p.Kept k) (value : Nat) : (p.setValue value).Kept k :=
  ⟨h.step_pos, Nat.min_le_right _ _, h.reported_eq, h.le⟩

/-- Finishing keeps what was kept. -/
theorem finish (h : p.Kept k) : p.finish.Kept k :=
  ⟨h.step_pos, Nat.le_refl _, h.reported_eq, h.le⟩

/-- For every change that is noticed a step more is kept. -/
theorem length_noticed_le (h : p.Kept k) (calls : List Call) :
    (p.noticed calls).length + k ≤ 100 / p.step := by
  -- Induction on the calls, over any state and whatever it has kept.
  induction calls generalizing p k with
  | nil => simpa [noticed] using h.le
  | cons c calls ih =>
    cases c with
    | setValue value => exact ih (h.setValue value)
    | finish => exact ih h.finish
    | changed =>
      have hstep : p.changed.2.step = p.step := by rw [changed_snd_eq]
      have hrest := ih h.changed
      rw [hstep] at hrest
      rw [noticed]
      split
      · next hchanged =>
        have hmore := h.changed_iff.mp hchanged
        rw [List.length_cons]
        omega
      · omega

/-- No sum goes far beyond a step. -/
theorem reported_add_step_le (h : p.Kept k) : p.reported + p.step ≤ Nat.max p.step 200 := by
  -- The steps that are completed fit into 100.
  have hreported : p.reported ≤ 100 := by
    rw [h.reported_eq, Nat.mul_comm]
    exact (Nat.le_div_iff_mul_le h.step_pos).mp h.le
  by_cases hstep : p.step ≤ 100
  · exact Nat.le_trans (by omega) (Nat.le_max_right p.step 200)
  · -- A longer step is never completed.
    obtain rfl : k = 0 := by
      have hle := h.le
      rwa [Nat.div_eq_of_lt (Nat.not_le.mp hstep), Nat.le_zero] at hle
    rw [h.reported_eq, Nat.mul_zero, Nat.zero_add]
    exact Nat.le_max_left p.step 200

end Kept

/-! ## Histories -/

/-- No call changes the length of a step. -/
theorem step_call (p : Progress) (c : Call) : (p.call c).step = p.step := by
  cases c with
  | changed => rw [call, changed_snd_eq]
  | _ => rfl

/-- No calls change the length of a step. -/
theorem step_after (p : Progress) (calls : List Call) : (p.after calls).step = p.step := by
  induction calls generalizing p with
  | nil => rfl
  | cons c calls ih => exact (ih (p.call c)).trans (p.step_call c)

/-- `k` is the greatest number of steps that were completed at a call of `changed`. -/
def IsMost (p : Progress) (calls : List Call) (k : Nat) : Prop :=
  ∀ m, k < m ↔ 0 < m ∧ ∀ before, before ++ [.changed] <+: calls → (p.after before).stepsDone < m

/-- Of the calls up to a last one, only the last one itself comes in addition. -/
theorem forall_prefix_concat {P : List Call → Prop} {c : Call} :
    (∀ before, before ++ [.changed] <+: calls ++ [c] → P before) ↔
      (c = .changed → P calls) ∧ ∀ before, before ++ [.changed] <+: calls → P before := by
  constructor
  · refine fun h => ⟨?_, fun before hbefore => h before (hbefore.trans (List.prefix_append _ _))⟩
    rintro rfl
    exact h calls List.prefix_rfl
  · rintro ⟨hlast, hbefore⟩ before hprefix
    -- A beginning of the longer list is the whole of it or one of the shorter list.
    rcases List.prefix_concat_iff.mp hprefix with heq | hprefix
    · obtain ⟨rfl, hc⟩ := List.append_inj' heq rfl
      exact hlast (List.cons.inj hc).1.symm
    · exact hbefore before hprefix

/-- What is kept is the most that was completed when it was asked. -/
theorem exists_kept (max step : Nat) (calls : List Call) :
    ∃ k, ((start max step).after calls).Kept k ∧ (start max step).IsMost calls k := by
  -- Induction on the history from its end, as what is kept goes by what was asked before.
  induction calls using List.reverseRecOn with
  | nil =>
    refine ⟨0, .start max step, fun m => ⟨fun hm => ⟨hm, fun before h => ?_⟩, fun h => h.1⟩⟩
    exact absurd (List.prefix_nil.mp h) (by simp)
  | append_singleton calls c ih =>
    obtain ⟨k, hkept, hmost⟩ := ih
    rw [after_append]
    cases c with
    | setValue value =>
      refine ⟨k, hkept.setValue value, fun m => ?_⟩
      rw [hmost, forall_prefix_concat]
      simp
    | finish =>
      refine ⟨k, hkept.finish, fun m => ?_⟩
      rw [hmost, forall_prefix_concat]
      simp
    | changed =>
      -- Only a question adds to what was asked before, and it raises what is kept.
      refine ⟨_, hkept.changed, fun m => ?_⟩
      rw [forall_prefix_concat, Nat.max_lt, hmost, and_right_comm, and_assoc]
      simp

/-- What is relied on when a counted operation is asked for changes. -/
structure NoticesSteps (max step : Nat) (calls : List Call) : Prop where
  changed_iff : ((start max step).after calls).changed.1 = true ↔
    0 < ((start max step).after calls).percent / Nat.max step 1 ∧
      ∀ before, before ++ [.changed] <+: calls →
        ((start max step).after before).percent / Nat.max step 1 <
          ((start max step).after calls).percent / Nat.max step 1
  length_le : ((start max step).noticed calls).length ≤ 100 / Nat.max step 1
  sum_le : ((start max step).after calls).reported + ((start max step).after calls).step ≤
    Nat.max (Nat.max step 1) 200

/-- At any time in any history, a change is noticed exactly if a new step is completed. -/
theorem noticesSteps (max step : Nat) (calls : List Call) : NoticesSteps max step calls := by
  obtain ⟨k, hkept, hmost⟩ := exists_kept max step calls
  have hstep : ∀ calls, ((start max step).after calls).step = Nat.max step 1 :=
    (start max step).step_after
  constructor
  · rw [hkept.changed_iff, hmost]
    simp only [stepsDone, hstep]
  · exact (Kept.start max step).length_noticed_le calls
  · rw [← hstep calls]
    exact hkept.reported_add_step_le

end Progress

/-! ## Reports of a flush -/

namespace Progress

variable {p : Progress} {dones : List Nat}

/-- The calls that count a number of parts up to some numbers, one after the other. -/
def countUp (dones : List Nat) : List Call := dones.flatMap fun n => [.setValue n, .changed]

/-- What is noticed in counting up is noticed at numbers that were counted, and is not the end. -/
theorem noticed_countUp (hdones : ∀ n ∈ dones, n ≤ p.max) (hfinished : p.finished = false) :
    ((p.noticed (countUp dones)).map value).Sublist dones ∧
      ∀ q ∈ p.noticed (countUp dones), q.finished = false := by
  -- Induction on the numbers that are still to be counted.
  induction dones generalizing p with
  | nil => exact ⟨.slnil, fun q hq => absurd hq List.not_mem_nil⟩
  | cons n dones ih =>
    obtain ⟨hn, hdones⟩ := List.forall_mem_cons.mp hdones
    have hmax : (p.setValue n).changed.2.max = p.max := by rw [changed_snd_eq, setValue]
    -- Asking changes only what is kept of earlier answers.
    have hvalue : (p.setValue n).changed.2.value = n := by
      rw [changed_snd_eq]
      exact Nat.min_eq_left hn
    have hopen : (p.setValue n).changed.2.finished = false := by
      rw [changed_snd_eq]
      exact hfinished
    obtain ⟨hvalues, hothers⟩ := ih (hmax ▸ hdones) hopen
    show ((noticed (p.setValue n) (.changed :: countUp dones)).map value).Sublist (n :: dones) ∧
      ∀ q ∈ noticed (p.setValue n) (.changed :: countUp dones), q.finished = false
    rw [noticed]
    split
    -- The change was noticed at this number.
    · rw [List.map_cons, hvalue]
      exact ⟨hvalues.cons_cons n, List.forall_mem_cons.mpr ⟨hopen, hothers⟩⟩
    · exact ⟨hvalues.cons n, hothers⟩

/-- Counting does not change how much there is to count. -/
theorem max_after_countUp (p : Progress) (dones : List Nat) :
    (p.after (countUp dones)).max = p.max := by
  induction dones generalizing p with
  | nil => rfl
  | cons n dones ih =>
    show ((p.setValue n).changed.2.after (countUp dones)).max = p.max
    rw [ih, changed_snd_eq, setValue]

end Progress

namespace Index

variable {f f' f'' : Flushing} {dones dones' : List Nat}

/-- A flush has counted up to these numbers and reported what was noticed. -/
structure CountsUp (f f' : Flushing) (dones : List Nat) : Prop where
  progress_eq : f'.progress = f.progress.after (Progress.countUp dones)
  reports_eq : f'.reports = f.reports ++ f.progress.noticed (Progress.countUp dones)

/-- A flush that has neither counted nor reported has counted up to nothing. -/
theorem CountsUp.of_eq (hprogress : f'.progress = f.progress) (hreports : f'.reports = f.reports) :
    CountsUp f f' [] := ⟨hprogress, by rw [hreports]; exact (List.append_nil _).symm⟩

/-- A flush counts on from where it was. -/
theorem CountsUp.trans (h : CountsUp f f' dones) (h' : CountsUp f' f'' dones') :
    CountsUp f f'' (dones ++ dones') := by
  have hcount : Progress.countUp (dones ++ dones') =
      Progress.countUp dones ++ Progress.countUp dones' := List.flatMap_append
  constructor
  · rw [hcount, Progress.after_append, h'.progress_eq, h.progress_eq]
  · rw [hcount, Progress.noticed_append, ← List.append_assoc, h'.reports_eq, h.reports_eq,
      h.progress_eq]

/-- The nodes of a name count once they are written. -/
theorem counts_flushNodes (name : QName) (key : Key) (nodes : List NodeRef) (done : Nat)
    (f : Flushing) : ∃ dones, dones.Sublist [done] ∧
      CountsUp f (Action.stateOf (flushNodes name key nodes done f)) dones := by
  rw [flushNodes]
  dsimp only
  split
  · exact ⟨[], List.nil_sublist _, .of_eq rfl rfl⟩
  -- The block was written; the number is set and `changed` asked once.
  · refine ⟨[done], List.Sublist.refl _, rfl, ?_⟩
    show (if (f.progress.setValue done).changed.1 then
        f.reports ++ [(f.progress.setValue done).changed.2] else f.reports) =
      f.reports ++ Progress.noticed (f.progress.setValue done) [.changed]
    rw [Progress.noticed]
    split
    · rfl
    · exact (List.append_nil _).symm

/-- A name counts once it is written, and not at all if it fails or has no nodes. -/
theorem counts_flushName (name : QName) (done : Nat) (f : Flushing) :
    ∃ dones, dones.Sublist [done] ∧
      CountsUp f (Action.stateOf (flushName name done f)) dones := by
  have hnone : ∀ index, CountsUp f { f with index } [] := fun index => .of_eq rfl rfl
  rw [flushName, Action.get_bind]
  cases hkey : Action.on (·.index) (fun index (f : Flushing) => { f with index })
      (keyOf name.kind f.batch.document.collection name) f with
  -- Without a key nothing is written, and nothing counts.
  | error e f₁ =>
    rw [Action.bind_of_error hkey]
    obtain ⟨t, -, rfl⟩ := onIndex_keyOf_eq_error_iff.mp hkey
    exact ⟨[], List.nil_sublist _, hnone _⟩
  | ok k f₁ =>
    rw [Action.bind_of_ok hkey, Action.get_bind]
    obtain ⟨t, -, rfl⟩ := onIndex_keyOf_eq_ok_iff.mp hkey
    dsimp only
    cases f.batch.nodes? name with
    | none => exact ⟨[], List.nil_sublist _, hnone _⟩
    | some nodes =>
      obtain ⟨dones, hdones, hcounted⟩ := counts_flushNodes name k nodes done _
      exact ⟨dones, hdones, (hnone _).trans hcounted⟩

/-- The names of a flush are counted in order. -/
theorem counts_flushNames (names : List QName) (done : Nat) (f : Flushing) :
    ∃ dones, dones.Sublist (List.range' done names.length) ∧
      CountsUp f (Action.stateOf (flushNames names done f)) dones := by
  -- Induction on the names; the first one counts as the `done`-th.
  induction names generalizing done f with
  | nil => exact ⟨[], List.nil_sublist _, .of_eq rfl rfl⟩
  | cons name names ih =>
    obtain ⟨dones, hdones, hcounted⟩ := counts_flushName name done f
    rw [flushNames]
    cases hname : flushName name done f with
    | error e f₁ =>
      rw [Action.bind_of_error hname]
      rw [hname] at hcounted
      exact ⟨dones, hdones.trans (by simp [List.range'_succ]), hcounted⟩
    | ok a f₁ =>
      rw [Action.bind_of_ok hname]
      rw [hname] at hcounted
      obtain ⟨dones', hdones', hcounted'⟩ := ih (done + 1) f₁
      exact ⟨dones ++ dones', hdones.append hdones', hcounted.trans hcounted'⟩

/-- What is reported while `n` names are counted. -/
structure CountsSteps (n step : Nat) (reports : List Progress) : Prop where
  length_le : reports.length ≤ 100 / Nat.max step 1
  values_lt : (reports.map Progress.value).Pairwise (· < ·)
  value_le : ∀ p ∈ reports, p.value ≤ n
  unfinished : ∀ p ∈ reports, p.finished = false

/-- A flush reports steps until its end or its failure. -/
theorem countsSteps_flushNames (i : Index) (b : Batch) :
    let f' := Action.stateOf (flushNames b.names 1 (begun (flushing i b)))
    CountsSteps b.names.length i.progressStep f'.reports ∧ f'.progress.max = b.names.length := by
  obtain ⟨dones, hdones, hcounted⟩ := counts_flushNames b.names 1 (begun (flushing i b))
  -- Only numbers of names are counted, so none is beyond the end.
  have hle : ∀ n ∈ dones, n ≤ b.names.length := fun n hn => by
    have := List.mem_range'_1.mp (hdones.subset hn)
    omega
  obtain ⟨hvalues, hunfinished⟩ := Progress.noticed_countUp
    (p := Progress.start b.names.length i.progressStep) hle rfl
  have hreports : (Action.stateOf (flushNames b.names 1 (begun (flushing i b)))).reports =
      (Progress.start b.names.length i.progressStep).noticed (Progress.countUp dones) :=
    hcounted.reports_eq
  refine ⟨?_, ?_⟩
  · rw [hreports]
    exact {
      length_le := (Progress.Kept.start _ _).length_noticed_le _
      values_lt := (List.pairwise_lt_range' (s := 1)).sublist (hvalues.trans hdones)
      value_le := fun p hp => hle p.value (hvalues.subset (List.mem_map_of_mem hp))
      unfinished := hunfinished }
  · rw [hcounted.progress_eq]
    exact Progress.max_after_countUp _ dones

/-- A change is noticed once for each completed step, and reported once.

At any time in any history of a counted operation, `changed` says yes if and only if more whole
steps are completed than at every earlier call, and not none; so it does for at most as many calls
as there are steps in 100.  A flush that succeeds has reported such changes, with values that get
greater, and then its end, if there is a name to write; one that fails has not reported its end. -/
theorem reports_once_per_step :
    (∀ max step calls, Progress.NoticesSteps max step calls) ∧
    ∀ i b,
      (∀ summary f', flush (flushing i b) = .ok summary f' → b.names ≠ [] →
        ∃ counted last, f'.reports = counted ++ [last] ∧
          CountsSteps b.names.length i.progressStep counted ∧
          last.finished = true ∧ last.value = b.names.length) ∧
      ∀ e f', flush (flushing i b) = .error e f' →
        CountsSteps b.names.length i.progressStep f'.reports := by
  refine ⟨Progress.noticesSteps, fun i b => ?_⟩
  -- The names are counted up one by one, whether or not all of them go through.
  obtain ⟨hcounts, hmax⟩ := countsSteps_flushNames i b
  cases hb : b.isEmpty with
  | true =>
    refine ⟨fun _ _ _ hsome => absurd (Batch.isEmpty_iff.mp hb) hsome, fun e f' h => ?_⟩
    rw [flush_of_isEmpty hb] at h
    cases h
  | false =>
    have hflush := flush_of_names (i := i) hb
    -- The end is reported only behind the last name.
    cases hrun : flushNames b.names 1 (begun (flushing i b)) with
    | error e f₁ =>
      rw [hrun] at hcounts hflush
      refine ⟨fun summary f' h => (nomatch hflush.symm.trans h), fun e' f' h => ?_⟩
      obtain ⟨-, rfl⟩ := EStateM.Result.error.inj (hflush.symm.trans h)
      exact hcounts
    | ok a f₁ =>
      rw [hrun] at hcounts hmax hflush
      refine ⟨fun summary f' h _ => ?_, fun e f' h => nomatch hflush.symm.trans h⟩
      obtain ⟨-, rfl⟩ := EStateM.Result.ok.inj (hflush.symm.trans h)
      exact ⟨f₁.reports, f₁.progress.finish, rfl, hcounts, rfl, hmax⟩

/-- A batch with a node for each of these attributes. -/
def attrIds (names : List String) : Batch :=
  names.foldl (fun b name => b.restore { localName := name, kind := .attrId }
    [{ doc := 1, node := ⟨[1]⟩ }]) (Batch.firstLoad ⟨1, 7, "/a"⟩)

/-- An empty index with a report every 40 percent, whose store refuses the third block. -/
def everyForty : Index where
  store := ({ name := "nodes", timeout := ⟨100⟩ } : Store).plan .append 3
  symbols := .empty
  progressStep := 40

/-- Two names are reported one by one, and then the end. -/
theorem flush_everyForty_two : ∃ summary f',
    flush (flushing everyForty (attrIds ["a", "b"])) = .ok summary f' ∧
      f'.reports.map Progress.value = [1, 2, 2] := ⟨_, _, rfl, rfl⟩

/-- Of three names the third fails; one step of 40 percent was completed before. -/
theorem flush_everyForty_three : ∃ e f',
    flush (flushing everyForty (attrIds ["a", "b", "c"])) = .error e f' ∧
      f'.reports.map Progress.value = [2] := ⟨_, _, rfl, rfl⟩

/-- A flush of two names reports steps and its end, and one that fails at the third name steps
alone. -/
theorem reports_once_per_step_everyForty :
    (∃ summary f', flush (flushing everyForty (attrIds ["a", "b"])) = .ok summary f' ∧
      (attrIds ["a", "b"]).names ≠ [] ∧
      ∃ counted last, f'.reports = counted ++ [last] ∧ CountsSteps 2 40 counted ∧
        last.finished = true ∧ last.value = 2) ∧
    ∃ e f', flush (flushing everyForty (attrIds ["a", "b", "c"])) = .error e f' ∧
      CountsSteps 3 40 f'.reports := by
  obtain ⟨_, hreports⟩ := reports_once_per_step
  obtain ⟨summary, f', hok, _⟩ := flush_everyForty_two
  obtain ⟨e, f'', herror, _⟩ := flush_everyForty_three
  have hnames : (attrIds ["a", "b"]).names ≠ [] := List.cons_ne_nil _ _
  exact ⟨⟨summary, f', hok, hnames, (hreports _ _).1 summary f' hok hnames⟩,
    e, f'', herror, (hreports _ _).2 e f'' herror⟩

end Index

end XmlIndex
