import TaskingFramework.Task.Executions
import TaskingFramework.Task.Standing

/-!
# The start of the schedulers

After `start(true)` a task with any inputs waits or is queued once.
-/

set_option linter.unusedSectionVars false

namespace TaskingFramework

namespace System

variable {τ σ ε γ ν : Type*} [DecidableEq τ] [DecidableEq σ] [DecidableEq ε] [DecidableEq γ]
  [DecidableEq ν] {L : Layout τ σ ε γ} {t u : τ} {s : System τ σ ε γ ν} {task : TaskImpl}

/-- No executor has begun to work, and the task waits or is queued. -/
structure Ready (L : Layout τ σ ε γ) (t : τ) (s : System τ σ ε γ ν) : Prop where
  placed : s.Placed L t
  stands : Stands .fresh (s.view L t)
  executor : ∀ e, s.executor e = .idle

/-- The first section of the reset of the task is over, and the last one has not begun. -/
private structure Inside (L : Layout τ σ ε γ) (t : τ) (s : System τ σ ε γ ν) : Prop where
  placed : s.Placed L t
  view : ∃ state a, (state = .reset ∨ state = .pending) ∧
    s.view L t = ⟨⟨state, a⟩, 0, nobody, fun _ => none⟩
  executor : ∀ e, s.executor e = .idle

theorem Unnotified.view (h : s.Unnotified t task) :
    s.view L t = ⟨task, 0, nobody, fun _ => none⟩ := by
  simp only [System.view, h.task, h.executor, h.notifier, ExecutePc.stage, NotifierPc.notice,
    List.count_eq_zero_of_not_mem (h.queue _)]
  rfl

theorem Unnotified.placed (h : s.Unnotified t task)
    (hrunning : s.running (L.associatedScheduler t) = true) : s.Placed L t :=
  ⟨hrunning, fun scheduler ht => absurd ht (h.queue scheduler)⟩

section Others

variable (hu : u ≠ t) (h : s.Ready L t)
include hu h

private theorem Ready.setTask (task : TaskImpl) : (s.setTask u task).Ready L t := by
  refine ⟨h.placed.setTask task, ?_, h.executor⟩
  rw [view_setTask_of_ne hu]
  exact h.stands

private theorem Ready.activate : (s.activate L u).Ready L t := by
  refine ⟨h.placed.activate, ?_, ?_⟩
  · rw [view_activate_of_ne hu]
    exact h.stands
  · rw [activate_executor]
    exact h.executor

private theorem Ready.resetFinish : (s.resetFinish L u).Ready L t := by
  refine ⟨h.placed.resetFinish, ?_, ?_⟩
  · rw [view_resetFinish_of_ne hu]
    exact h.stands
  · rw [resetFinish_executor]
    exact h.executor

private theorem Ready.reset_of_ne : (s.reset L u).Ready L t := by
  apply Ready.resetFinish hu
  apply List.foldlRecOn (motive := fun s : System τ σ ε γ ν => s.Ready L t)
  · exact h.setTask hu _
  · intro r hr i _
    have hinput : (r.resetInput u i).1.Ready L t := hr.setTask hu _
    by_cases hact : (r.resetInput u i).2 = true
    · simp only [hact, if_true]
      exact hinput.activate hu
    · simp only [hact]
      exact hinput

end Others

private theorem Inside.resetInput (h : s.Inside L t) (i : Nat) : (s.resetInput t i).1.Inside L t := by
  obtain ⟨state, a, hstate, hview⟩ := h.view
  have htask : s.task t = ⟨state, a⟩ := congrArg TaskView.task hview
  have hinput : ((s.task t).resetInput i).1.state = state := by
    rw [htask]
    unfold TaskImpl.resetInput
    split <;> rfl
  refine ⟨h.placed.setTask _, ⟨state, ((s.task t).resetInput i).1.inputs, hstate, ?_⟩, h.executor⟩
  rw [System.resetInput, view_setTask_self, hview]
  simp only [TaskView.put, ← hinput]
  rfl

private theorem Inside.activate (h : s.Inside L t) : (s.activate L t).Inside L t := by
  obtain ⟨state, a, hstate, hview⟩ := h.view
  have htask : s.task t = ⟨state, a⟩ := congrArg TaskView.task hview
  have hexecutor : ∀ e, (s.activate L t).executor e = .idle := by
    rw [activate_executor]
    exact h.executor
  have hactivate : ∃ state', (state' = .reset ∨ state' = .pending) ∧
      (s.task t).activate = (⟨state', a⟩, false) := by
    rw [htask]
    rcases hstate with rfl | rfl
    · cases hact : a.isActivated with
      | true => exact ⟨.pending, Or.inr rfl, by simp [TaskImpl.activate, hact]⟩
      | false => exact ⟨.reset, Or.inl rfl, by simp [TaskImpl.activate, hact]⟩
    · exact ⟨.pending, Or.inr rfl, rfl⟩
  obtain ⟨state', hstate', hactivate⟩ := hactivate
  refine ⟨h.placed.activate, ⟨state', a, hstate', ?_⟩, hexecutor⟩
  rw [view_activate_self h.placed.running, hactivate, hview]
  rfl

private theorem Inside.resetFinish (h : s.Inside L t) : (s.resetFinish L t).Ready L t := by
  obtain ⟨state, a, _, hview⟩ := h.view
  refine ⟨h.placed.resetFinish, ?_, ?_⟩
  · have htask : s.task t = ⟨state, a⟩ := congrArg TaskView.task hview
    rw [view_resetFinish_self h.placed.running, htask, hview, TaskImpl.resetFinish]
    split
    · exact .queued
    · exact .waiting
  · rw [resetFinish_executor]
    exact h.executor

private theorem Unnotified.reset_ready (h : s.Unnotified t task)
    (hrunning : s.running (L.associatedScheduler t) = true) : (s.reset L t).Ready L t := by
  apply Inside.resetFinish
  apply List.foldlRecOn (motive := fun s : System τ σ ε γ ν => s.Inside L t)
  · refine ⟨(h.placed hrunning).setTask _, ⟨.reset, task.inputs, Or.inl rfl, ?_⟩, h.executor⟩
    rw [view_setTask_self, h.view, h.task]
    rfl
  · intro r hr i _
    have hinput := hr.resetInput i
    by_cases hact : (r.resetInput t i).2 = true
    · simp only [hact, if_true]
      exact hinput.activate
    · simp only [hact]
      exact hinput

private theorem Ready.resets (h : s.Ready L t) {l : List τ} (hl : t ∉ l) :
    (l.foldl (reset L) s).Ready L t := by
  induction l generalizing s with
  | nil => exact h
  | cons u l ih =>
      rw [List.mem_cons, not_or] at hl
      exact ih (h.reset_of_ne fun heq => hl.1 heq.symm) hl.2

private theorem Unnotified.resets_of_not_mem (h : s.Unnotified t task) {l : List τ} (hl : t ∉ l) :
    (l.foldl (reset L) s).Unnotified t task := by
  induction l generalizing s with
  | nil => exact h
  | cons u l ih =>
      rw [List.mem_cons, not_or] at hl
      exact ih (h.reset_of_ne fun heq => hl.1 heq.symm) hl.2

private theorem Unnotified.resets_ready (h : s.Unnotified t task) {l : List τ} (hl : t ∈ l)
    (hnodup : l.Nodup) (hrunning : s.running (L.associatedScheduler t) = true) :
    (l.foldl (reset L) s).Ready L t := by
  induction l generalizing s with
  | nil => exact absurd hl List.not_mem_nil
  | cons u l ih =>
      rw [List.nodup_cons] at hnodup
      by_cases hu : u = t
      · subst u
        exact (h.reset_ready hrunning).resets hnodup.1
      · apply ih (h.reset_of_ne hu) _ hnodup.2
        · rw [reset_running]
          exact hrunning
        · rcases List.mem_cons.mp hl with heq | hl
          · exact absurd heq.symm hu
          · exact hl

/-- The task is associated once with its scheduler, and the scheduler is started once. -/
theorem started_ready {inputs : τ → InputArray} {schedulers : List σ}
    (hassociated : (L.associatedTasks (L.associatedScheduler t)).Nodup)
    (hstart : L.associatedScheduler t ∈ schedulers) (hnodup : schedulers.Nodup) :
    (started L inputs schedulers : System τ σ ε γ ν).Ready L t := by
  have hother : ∀ scheduler, L.associatedScheduler t ≠ scheduler →
      t ∉ L.associatedTasks scheduler :=
    fun scheduler hne ht => hne ((L.mem_associatedTasks t scheduler).mp ht)
  have hbehind : ∀ (l : List σ) (r : System τ σ ε γ ν), L.associatedScheduler t ∉ l →
      r.Ready L t → (l.foldl (fun s scheduler => s.start L true scheduler) r).Ready L t := by
    intro l
    induction l with
    | nil => exact fun r _ hr => hr
    | cons scheduler l ih =>
        intro r hl hr
        rw [List.mem_cons, not_or] at hl
        apply ih _ hl.2
        have hbegin : ({ r with running := Function.update r.running scheduler true } :
            System τ σ ε γ ν).Ready L t := by
          refine ⟨⟨?_, hr.placed.elsewhere⟩, hr.stands, hr.executor⟩
          simp only [Function.update_of_ne hl.1]
          exact hr.placed.running
        exact hbegin.resets (hother scheduler hl.1)
  have hbefore : ∀ (l : List σ) (r : System τ σ ε γ ν), L.associatedScheduler t ∈ l → l.Nodup →
      r.Unnotified t ⟨.finish, inputs t⟩ →
      (l.foldl (fun s scheduler => s.start L true scheduler) r).Ready L t := by
    intro l
    induction l with
    | nil => exact fun r hl => absurd hl List.not_mem_nil
    | cons scheduler l ih =>
        intro r hl hl' hr
        rw [List.nodup_cons] at hl'
        have hbegin : ({ r with running := Function.update r.running scheduler true } :
            System τ σ ε γ ν).Unnotified t ⟨.finish, inputs t⟩ :=
          ⟨hr.task, hr.queue, hr.executor, hr.notifier⟩
        by_cases hs : L.associatedScheduler t = scheduler
        · subst scheduler
          apply hbehind l _ hl'.1
          have hmem := (L.mem_associatedTasks t (L.associatedScheduler t)).mpr rfl
          exact hbegin.resets_ready hmem hassociated (Function.update_self ..)
        · apply ih _ _ hl'.2
          · exact hbegin.resets_of_not_mem (hother scheduler hs)
          · rcases List.mem_cons.mp hl with heq | hl
            · exact absurd heq hs
            · exact hl
  apply hbefore schedulers _ hstart hnodup
  exact ⟨rfl, by simp [constructed], by simp [constructed], by simp [constructed]⟩

end System

end TaskingFramework
