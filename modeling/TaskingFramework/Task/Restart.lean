import TaskingFramework.Task.Scheduler
import Mathlib.Data.List.Nodup

/-!
# Starting without a reset

`start(false)` queues the activated tasks, and leaves their states as they are. The states fit if every
task has been reset once, and is running exactly when it is activated.
-/

set_option linter.unusedSectionVars false

namespace TaskingFramework

open Foundation

namespace Scheduler

variable {τ : Type} [DecidableEq τ] {s u : Scheduler τ} {t f : τ} {i : Nat} {c : SchedulerCall τ}

/-- What holds between the calls in any state. -/
structure AtRest (s : Scheduler τ) : Prop where
  once : s.associatedTasks.Nodup
  states : ∀ t, (s.task t).state = .finish ∨ (s.task t).state = .wait ∨ (s.task t).state = .run
  empty : s.running = false → s.runQueue = []

private theorem AtRest.states_ne_reset (h : s.AtRest) : (s.task t).state ≠ .reset := by
  intro hstate
  rcases h.states t with hs | hs | hs
  · rw [hs] at hstate
    exact absurd hstate (by decide)
  · rw [hs] at hstate
    exact absurd hstate (by decide)
  · rw [hs] at hstate
    exact absurd hstate (by decide)

private theorem AtRest.setTask {task : TaskImpl} (h : s.AtRest)
    (htask : task.state = .finish ∨ task.state = .wait ∨ task.state = .run) :
    (s.setTask t task).AtRest := by
  refine ⟨h.once, fun f => ?_, h.empty⟩
  by_cases hf : f = t
  · rw [hf, setTask_self]
    exact htask
  · rw [show (s.setTask t task).task f = s.task f from Function.update_of_ne hf _ _]
    exact h.states f

private theorem AtRest.concerns (h : s.AtRest) (hu : Concerns t s u)
    (htask : (u.task t).state = .finish ∨ (u.task t).state = .wait ∨ (u.task t).state = .run)
    (hqueue : s.running = false → u.runQueue = s.runQueue) : u.AtRest := by
  refine ⟨?_, fun f => ?_, ?_⟩
  · rw [hu.associated]
    exact h.once
  · by_cases hf : f = t
    · rw [hf]
      exact htask
    · rw [hu.others f hf]
      exact h.states f
  · intro hstopped
    rw [hu.running] at hstopped
    rw [hqueue hstopped]
    exact h.empty hstopped

private theorem AtRest.reset (h : s.AtRest) : (s.reset t).AtRest := by
  obtain ⟨hconcerns, hcases⟩ := reset_concerns (s := s) (t := t)
  apply h.concerns hconcerns
  · rcases hcases with ⟨hwait, _⟩ | ⟨hrun, _⟩
    · exact Or.inr (Or.inl hwait)
    · exact Or.inr (Or.inr hrun)
  · intro hstopped
    rcases hcases with ⟨_, hqueue⟩ | ⟨_, hqueue⟩
    · exact hqueue
    · rw [hqueue, hstopped]
      rfl

private theorem AtRest.resets (h : s.AtRest) (l : List τ) : (l.foldl Scheduler.reset s).AtRest := by
  induction l generalizing s with
  | nil => exact h
  | cons t l ih => exact ih h.reset

private theorem AtRest.call (h : s.AtRest) (hlegal : s.Legal c) : (s.call c).AtRest := by
  cases c with
  | construct t inputs =>
      have hset : (s.setTask t ⟨.finish, inputs⟩).AtRest := h.setTask (Or.inl rfl)
      exact ⟨List.nodup_cons.mpr ⟨hlegal, h.once⟩, hset.states, hset.empty⟩
  | configure t i activations final =>
      show (s.configure t i activations final).AtRest
      unfold configure
      split
      · exact h.setTask (h.states t)
      · exact h
  | setSynchron t i syncState =>
      show (s.setSynchron t i syncState).AtRest
      unfold setSynchron
      split
      · exact h.setTask (h.states t)
      · exact h
  | setCondition t condition => exact h.setTask (h.states t)
  | notify t i =>
      obtain ⟨hconcerns, hcases⟩ := notifyInput_concerns (i := i) (h.states_ne_reset (t := t))
      apply h.concerns hconcerns
      · rcases hcases with ⟨hstate, _⟩ | ⟨_, hrun, _⟩
        · rw [hstate]
          exact h.states t
        · exact Or.inr (Or.inr hrun)
      · intro hstopped
        rcases hcases with ⟨_, hqueue⟩ | ⟨_, _, hqueue⟩
        · exact hqueue
        · rw [hqueue, hstopped]
          rfl
  | start =>
      have hrunning : ({ s with running := true } : Scheduler τ).AtRest :=
        ⟨h.once, h.states, fun heq => absurd heq (by simp)⟩
      exact hrunning.resets s.associatedTasks
  | execute t =>
      have hrunning : s.running ≠ false := by
        intro hstopped
        rw [Scheduler.Legal, h.empty hstopped] at hlegal
        exact List.not_mem_nil hlegal
      have hremoved : ({ s with runQueue := s.runQueue.erase t } : Scheduler τ).AtRest :=
        ⟨h.once, h.states, fun heq => absurd heq hrunning⟩
      exact hremoved.reset
  | terminate => exact ⟨h.once, h.states, fun _ => rfl⟩

/-- The activated tasks are queued once and running, the others wait. -/
def Started (s u : Scheduler τ) : Prop :=
  ∀ t ∈ s.associatedTasks,
    if (s.task t).inputs.isActivated then u.runQueue.count t = 1 ∧ (u.task t).state = .run
    else t ∉ u.runQueue ∧ (u.task t).state = .wait

/-- Every task has been reset since its construction, and is running exactly when it is activated. -/
def Restartable (s : Scheduler τ) : Prop :=
  ∀ t ∈ s.associatedTasks, (s.task t).state ≠ .finish ∧
    ((s.task t).state = .wait → (s.task t).inputs.isActivated = false) ∧
    ((s.task t).state = .run → (s.task t).inputs.isActivated = true)

/-- The run queue holds the running tasks once, the others wait. -/
structure Ready (s : Scheduler τ) : Prop where
  running : s.running = true
  once : s.runQueue.Nodup
  associated : ∀ t ∈ s.runQueue, t ∈ s.associatedTasks
  queued : ∀ t ∈ s.associatedTasks,
    t ∈ s.runQueue ∧ (s.task t).state = .run ∨ t ∉ s.runQueue ∧ (s.task t).state = .wait

private theorem Ready.concerns {q : List τ} (h : s.Ready) (ht : t ∈ s.associatedTasks)
    (hq : q.Nodup) (hnot : t ∉ q) (hmem : ∀ f, f ≠ t → (f ∈ q ↔ f ∈ s.runQueue))
    (hu : Concerns t s u)
    (hcases : (u.task t).state = .wait ∧ u.runQueue = q ∨
      (u.task t).state = .run ∧ u.runQueue = q ++ [t]) : u.Ready := by
  have hothers : ∀ f, f ≠ t → (f ∈ u.runQueue ↔ f ∈ s.runQueue) := by
    intro f hf
    rw [← hmem f hf]
    rcases hcases with ⟨_, hqueue⟩ | ⟨_, hqueue⟩
    · rw [hqueue]
    · simp [hqueue, hf]
  refine ⟨hu.running.trans h.running, ?_, ?_, ?_⟩
  · rcases hcases with ⟨_, hqueue⟩ | ⟨_, hqueue⟩
    · rw [hqueue]
      exact hq
    · rw [hqueue]
      apply List.nodup_append.mpr
      refine ⟨hq, List.nodup_singleton t, ?_⟩
      intro a ha b hb heq
      rw [heq, List.mem_singleton.mp hb] at ha
      exact hnot ha
  · intro f hf
    rw [hu.associated]
    by_cases hft : f = t
    · rw [hft]
      exact ht
    · exact h.associated f ((hothers f hft).mp hf)
  · intro f hf
    rw [hu.associated] at hf
    by_cases hft : f = t
    · subst hft
      rcases hcases with ⟨hstate, hqueue⟩ | ⟨hstate, hqueue⟩
      · exact Or.inr ⟨by rw [hqueue]; exact hnot, hstate⟩
      · exact Or.inl ⟨by simp [hqueue], hstate⟩
    · rw [hothers f hft, hu.others f hft]
      exact h.queued f hf

private theorem Ready.states_ne_reset (h : s.Ready) (ht : t ∈ s.associatedTasks) :
    (s.task t).state ≠ .reset := by
  rcases h.queued t ht with ⟨_, hs⟩ | ⟨_, hs⟩
  · rw [hs]
    decide
  · rw [hs]
    decide

private theorem Ready.notifyInput (h : s.Ready) (ht : t ∈ s.associatedTasks) :
    (s.notifyInput t i).Ready := by
  obtain ⟨hconcerns, hcases⟩ := notifyInput_concerns (i := i) (h.states_ne_reset ht)
  rcases h.queued t ht with ⟨hmem, hrun⟩ | ⟨hnot, hwait⟩
  · rcases hcases with ⟨hstate, hqueue⟩ | ⟨hs, _⟩
    · refine ⟨hconcerns.running.trans h.running, ?_, ?_, ?_⟩
      · rw [hqueue]
        exact h.once
      · rw [hqueue, hconcerns.associated]
        exact h.associated
      · intro f hf
        rw [hconcerns.associated] at hf
        rw [hqueue]
        by_cases hft : f = t
        · rw [hft, hstate]
          exact Or.inl ⟨hmem, hrun⟩
        · rw [hconcerns.others f hft]
          exact h.queued f hf
    · rw [hrun] at hs
      exact absurd hs (by decide)
  · apply h.concerns ht h.once hnot (fun f _ => Iff.rfl) hconcerns
    rcases hcases with ⟨hstate, hqueue⟩ | ⟨_, hrun, hqueue⟩
    · exact Or.inl ⟨hstate.trans hwait, hqueue⟩
    · rw [if_pos h.running] at hqueue
      exact Or.inr ⟨hrun, hqueue⟩

private theorem Ready.execute (h : s.Ready) (ht : t ∈ s.runQueue) : (s.execute t).Ready := by
  let taken : Scheduler τ := { s with runQueue := s.runQueue.erase t }
  obtain ⟨hconcerns, hcases⟩ := reset_concerns (s := taken) (t := t)
  have hs : Concerns t s (s.execute t) :=
    ⟨hconcerns.others, hconcerns.condition, hconcerns.associated, hconcerns.running⟩
  apply h.concerns (h.associated t ht) (h.once.erase t) h.once.not_mem_erase ?_ hs
  · rw [if_pos (show taken.running = true from h.running)] at hcases
    rcases hcases with ⟨hwait, hqueue⟩ | ⟨hrun, hqueue⟩
    · exact Or.inl ⟨hwait, hqueue⟩
    · exact Or.inr ⟨hrun, hqueue⟩
  · exact fun f hf => List.mem_erase_of_ne hf

/-- The alternative conditions depend on the activation of inputs. -/
def ByActivation (s : Scheduler τ) : Prop :=
  ∀ t condition, (s.task t).inputs.condition = some condition → InputArray.ByActivation condition

private theorem ByActivation.concerns (h : s.ByActivation) (hu : Concerns t s u) : u.ByActivation := by
  intro f condition hf
  by_cases hft : f = t
  · subst hft
    rw [hu.condition] at hf
    exact h f condition hf
  · rw [hu.others f hft] at hf
    exact h f condition hf

private theorem Ready.works (h : s.Ready) (hstep : Step s c u ∧ Works c) :
    u.Ready ∧ (s.ByActivation → u.ByActivation) := by
  obtain ⟨⟨hlegal, rfl⟩, hworks⟩ := hstep
  cases c with
  | notify t i =>
      have hconcerns := (notifyInput_concerns (i := i) (h.states_ne_reset hlegal)).1
      exact ⟨h.notifyInput hlegal, fun hby => hby.concerns hconcerns⟩
  | execute t =>
      refine ⟨h.execute hlegal, fun hby => ?_⟩
      have htaken : ({ s with runQueue := s.runQueue.erase t } : Scheduler τ).ByActivation := hby
      exact htaken.concerns reset_concerns.1
  | construct t inputs => exact absurd hworks id
  | configure t i activations final => exact absurd hworks id
  | setSynchron t i syncState => exact absurd hworks id
  | setCondition t condition => exact absurd hworks id
  | start => exact absurd hworks id
  | terminate => exact absurd hworks id

end Scheduler

end TaskingFramework
