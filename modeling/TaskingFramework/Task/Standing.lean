import TaskingFramework.Task.Phase

/-!
# Where the members of a group stand

A member of a group is executed once in a round, finishes and is reset together with the others. Its
inputs may be of any kind.
-/

set_option linter.unusedSectionVars false

namespace TaskingFramework

inductive Standing (ε : Type*) where
  | fresh             -- waiting, queued or being executed
  | executed          -- before its executor sets `TASK_FINISH`
  | finished
  | resetting (e : ε)
  deriving DecidableEq

inductive Stands {ε ν : Type*} [DecidableEq ε] : Standing ε → TaskView ε ν → Prop where
  | waiting {a : InputArray} {notice : ν → Option Notice} :
      Stands .fresh ⟨⟨.wait, a⟩, 0, nobody, notice⟩
  | queued {a : InputArray} {notice : ν → Option Notice} :
      Stands .fresh ⟨⟨.run, a⟩, 1, nobody, notice⟩
  | busy {a : InputArray} {notice : ν → Option Notice} {e : ε} {stage : Stage}
      (hstage : stage = .fetched ∨ stage = .executing) :
      Stands .fresh ⟨⟨.run, a⟩, 0, only e stage, notice⟩
  | executed {a : InputArray} {notice : ν → Option Notice} :
      Stands .executed ⟨⟨.run, a⟩, 0, nobody, notice⟩
  | finished {a : InputArray} {notice : ν → Option Notice} :
      Stands .finished ⟨⟨.finish, a⟩, 0, nobody, notice⟩
  | entering {a : InputArray} {notice : ν → Option Notice} {e : ε} :
      Stands (.resetting e) ⟨⟨.finish, a⟩, 0, only e (.resetting .enter), notice⟩
  | resetting {a : InputArray} {notice : ν → Option Notice} {e : ε} {state : TaskState} {pc : ResetPc}
      (hstate : state = .reset ∨ state = .pending) (hpc : pc ≠ .enter) :
      Stands (.resetting e) ⟨⟨state, a⟩, 0, only e (.resetting pc), notice⟩

theorem TaskImpl.nextInput_ne_enter (task : TaskImpl) (i : Nat) : task.nextInput i ≠ .enter := by
  unfold nextInput
  split <;> simp

section Steps

variable {ε ν : Type*} [DecidableEq ε] [DecidableEq ν] {v w : TaskView ε ν} {standing : Standing ε}
  {event : TaskEvent} {e f : ε} {c : ν} {i : Nat} {x : Input}

theorem Stands.notify (h : Stands standing v) :
    Stands standing ((v.put (v.task.setInput i x.notify.1, false)).setNotice c
      (if x.notify.2 then some (.counted i) else none)) := by
  cases h with
  | waiting => exact .waiting
  | queued => exact .queued
  | busy hstage => exact .busy hstage
  | executed => exact .executed
  | finished => exact .finished
  | entering => exact .entering
  | resetting hstate hpc => exact .resetting hstate hpc

theorem Stands.setNotice (h : Stands standing v) (notice : Option Notice) :
    Stands standing (v.setNotice c notice) := by
  cases h with
  | waiting => exact .waiting
  | queued => exact .queued
  | busy hstage => exact .busy hstage
  | executed => exact .executed
  | finished => exact .finished
  | entering => exact .entering
  | resetting hstate hpc => exact .resetting hstate hpc

/-- Only a waiting member is queued; one that is being reset gets pending. -/
theorem Stands.activate (h : Stands standing v) : Stands standing (v.put v.task.activate) := by
  cases h with
  | @waiting a _ =>
      cases hact : a.isActivated with
      | true =>
          simp only [TaskImpl.activate, hact, if_true, TaskView.put]
          exact .queued
      | false =>
          simp only [TaskImpl.activate, hact]
          exact .waiting
  | queued => exact .queued
  | busy hstage => exact .busy hstage
  | executed => exact .executed
  | finished => exact .finished
  | entering => exact .entering
  | @resetting a _ _ _ _ hstate hpc =>
      rcases hstate with rfl | rfl
      · cases hact : a.isActivated with
        | true =>
            simp only [TaskImpl.activate, hact, if_true, TaskView.put]
            exact .resetting (Or.inr rfl) hpc
        | false =>
            simp only [TaskImpl.activate, hact]
            exact .resetting (Or.inl rfl) hpc
      · exact .resetting (Or.inr rfl) hpc

theorem Stands.fetch (h : Stands standing v) (hq : 0 < v.queued) :
    Stands standing ({ v with queued := v.queued - 1 }.setStage e (some .fetched)) := by
  cases h with
  | queued => exact .busy (Or.inl rfl)
  | waiting | busy | executed | finished | entering | resetting => simp at hq

theorem Stands.start (h : Stands standing v) (he : v.stage e = some .fetched) :
    Stands standing (v.setStage e (some .executing)) := by
  cases h with
  | busy hstage =>
      rcases only_eq_some.mp he with ⟨rfl, _⟩
      rw [TaskView.setStage, update_only]
      exact .busy (Or.inr rfl)
  | waiting | queued | executed | finished => simp [nobody] at he
  | entering | resetting => simp [only_eq_some] at he

theorem Stands.executing (h : Stands standing v) (he : v.stage e = some .executing) :
    standing = .fresh ∧ Stands .executed (v.setStage e none) := by
  cases h with
  | busy hstage =>
      rcases only_eq_some.mp he with ⟨rfl, _⟩
      rw [TaskView.setStage, update_only, update_nobody]
      exact ⟨rfl, .executed⟩
  | waiting | queued | executed | finished => simp [nobody] at he
  | entering | resetting => simp [only_eq_some] at he

theorem Stands.finish (h : Stands .executed v) :
    Stands .finished (v.put ({ v.task with state := .finish }, false)) := by
  cases h with
  | executed => exact .finished

theorem Stands.enter (h : Stands .finished v) :
    Stands (.resetting e) (v.setStage e (some (.resetting .enter))) := by
  cases h with
  | finished => exact .entering

theorem Stands.resetEnter (h : Stands standing v) (he : v.stage e = some (.resetting .enter)) :
    Stands standing ((v.put (v.task.resetEnter, false)).setStage e
      (some (.resetting (v.task.nextInput 0)))) := by
  cases h with
  | entering =>
      rcases only_eq_some.mp he with ⟨rfl, _⟩
      rw [TaskView.setStage, TaskView.put, update_only]
      exact .resetting (Or.inl rfl) (TaskImpl.nextInput_ne_enter _ _)
  | busy hstage =>
      rcases only_eq_some.mp he with ⟨_, rfl⟩
      simp at hstage
  | waiting | queued | executed | finished => simp [nobody] at he
  | resetting _ hpc => exact absurd (Stage.resetting.inj (only_eq_some.mp he).2) hpc

theorem Stands.resetInput (h : Stands standing v) (he : v.stage e = some (.resetting (.input i))) :
    Stands standing ((v.put ((v.task.resetInput i).1, false)).setStage e
      (some (.resetting (if (v.task.resetInput i).2 then .activate i
        else v.task.nextInput (i + 1))))) := by
  cases h with
  | @resetting a _ _ state _ hstate _ =>
      rcases only_eq_some.mp he with ⟨rfl, _⟩
      have hpc : (if ((⟨state, a⟩ : TaskImpl).resetInput i).2 then .activate i
          else (⟨state, a⟩ : TaskImpl).nextInput (i + 1)) ≠ .enter := by
        split
        · simp
        · exact TaskImpl.nextInput_ne_enter _ _
      have hinput : ((⟨state, a⟩ : TaskImpl).resetInput i).1.state = state := by
        unfold TaskImpl.resetInput
        split <;> rfl
      rw [TaskView.setStage, TaskView.put, update_only]
      rw [← hinput] at hstate
      exact .resetting hstate hpc
  | busy hstage =>
      rcases only_eq_some.mp he with ⟨_, rfl⟩
      simp at hstage
  | waiting | queued | executed | finished => simp [nobody] at he
  | entering => simp [only_eq_some] at he

theorem Stands.resetActivate (h : Stands standing v)
    (he : v.stage e = some (.resetting (.activate i))) :
    Stands standing ((v.put v.task.activate).setStage e
      (some (.resetting (v.task.nextInput (i + 1))))) := by
  have hnext := h.activate
  have hstage : (v.put v.task.activate).stage e = some (.resetting (.activate i)) := he
  generalize v.put v.task.activate = w at hnext hstage ⊢
  cases hnext with
  | resetting hstate _ =>
      rcases only_eq_some.mp hstage with ⟨rfl, _⟩
      rw [TaskView.setStage, update_only]
      exact .resetting hstate (TaskImpl.nextInput_ne_enter _ _)
  | busy hbusy =>
      rcases only_eq_some.mp hstage with ⟨_, rfl⟩
      simp at hbusy
  | waiting | queued | executed | finished => simp [nobody] at hstage
  | entering => simp [only_eq_some] at hstage

theorem Stands.resetFinish (h : Stands standing v) (he : v.stage e = some (.resetting .finish)) :
    standing = .resetting e ∧ Stands .fresh ((v.put v.task.resetFinish).setStage e none) := by
  cases h with
  | @resetting a _ _ state _ _ _ =>
      rcases only_eq_some.mp he with ⟨rfl, _⟩
      refine ⟨rfl, ?_⟩
      rw [TaskView.setStage, TaskView.put, update_only, update_nobody, TaskImpl.resetFinish]
      split
      · exact .queued
      · exact .waiting
  | busy hstage =>
      rcases only_eq_some.mp he with ⟨_, rfl⟩
      simp at hstage
  | waiting | queued | executed | finished => simp [nobody] at he
  | entering => simp [only_eq_some] at he

/-- The steps of the view leave a member where it stands in the round of its group, apart from the
end of its execution and the end of its reset. -/
theorem Stands.step (h : Stands standing v) (hs : v.Step event w) (hevent : event ≠ .executed)
    (hstage : ∀ e, v.stage e ≠ none → w.stage e ≠ none) : Stands standing w := by
  cases hs with
  | other => exact h
  | notify _ _ => exact h.notify
  | check _ _ => exact h.setNotice _
  | activate _ => exact h.activate.setNotice _
  | fetch _ hq => exact h.fetch hq
  | start he => exact h.start he
  | executed _ => exact absurd rfl hevent
  | resetEnter he => exact h.resetEnter he
  | resetInput he => exact h.resetInput he
  | resetActivate he => exact h.resetActivate he
  | @resetFinish e he => exact absurd (by simp [TaskView.setStage]) (hstage e (by simp [he]))

/-- An executor is inside the reset of the member. -/
def TaskView.Resets (v : TaskView ε ν) : Prop := ∃ e pc, v.stage e = some (.resetting pc)

theorem Stands.resets_iff (h : Stands standing v) : v.Resets ↔ ∃ e, standing = .resetting e := by
  unfold TaskView.Resets
  cases h with
  | waiting | queued | executed | finished => simp [nobody]
  | busy hstage => rcases hstage with rfl | rfl <;> simp [only_eq_some]
  | entering | resetting => simp [only_eq_some]

/-- A member in state `TASK_FINISH` is finished, or an executor begins its reset. -/
theorem Stands.state_finish (h : Stands standing v) (hstate : v.task.state = .finish) :
    standing = .finished ∨ ∃ e, standing = .resetting e := by
  cases h with
  | finished => exact Or.inl rfl
  | @entering _ _ e => exact Or.inr ⟨e, rfl⟩
  | @resetting _ _ e => exact Or.inr ⟨e, rfl⟩
  | waiting | queued | busy | executed => simp at hstate

theorem Stands.finish_state (h : Stands .finished v) : v.task.state = .finish := by
  cases h with
  | finished => rfl

end Steps

end TaskingFramework
