import TaskingFramework.Foundation.Runs
import TaskingFramework.Task.System

/-!
# Starting and terminating a scheduler

A scheduler with tasks that are part of no group. Its operations run one after the other; a run of a
task takes any task out of the run queue and ends with the reset of this task.
-/

set_option linter.unusedSectionVars false

namespace TaskingFramework

open Foundation

structure Scheduler (τ : Type) where
  task : τ → TaskImpl
  associatedTasks : List τ
  running : Bool
  runQueue : List τ

inductive SchedulerCall (τ : Type) where
  | construct (task : τ) (inputs : InputArray)
  | configure (task : τ) (i activations : Nat) (final : Bool)
  | setSynchron (task : τ) (i : Nat) (syncState : Bool)
  | setCondition (task : τ) (condition : List Input → Bool)
  | notify (task : τ) (i : Nat)
  | start
  | execute (task : τ)
  | terminate

namespace Scheduler

variable {τ : Type} [DecidableEq τ] {s u : Scheduler τ} {t f : τ} {i : Nat} {x : Input}

def init (inputs : τ → InputArray) : Scheduler τ := ⟨fun t => ⟨.finish, inputs t⟩, [], false, []⟩

def setTask (s : Scheduler τ) (t : τ) (task : TaskImpl) : Scheduler τ :=
  { s with task := Function.update s.task t task }

/-- The constructor of a task adds it to its scheduler. -/
def construct (s : Scheduler τ) (t : τ) (inputs : InputArray) : Scheduler τ :=
  { s.setTask t ⟨.finish, inputs⟩ with associatedTasks := t :: s.associatedTasks }

def configure (s : Scheduler τ) (t : τ) (i activations : Nat) (final : Bool) : Scheduler τ :=
  match (s.task t).inputs.inputs[i]? with
  | some x => s.setTask t ((s.task t).setInput i (x.configure activations final))
  | none => s

def setSynchron (s : Scheduler τ) (t : τ) (i : Nat) (syncState : Bool) : Scheduler τ :=
  match (s.task t).inputs.inputs[i]? with
  | some x => s.setTask t ((s.task t).setInput i (x.setSynchron syncState))
  | none => s

def setCondition (s : Scheduler τ) (t : τ) (condition : List Input → Bool) : Scheduler τ :=
  s.setTask t { s.task t with inputs := { (s.task t).inputs with condition := some condition } }

def perform (s : Scheduler τ) (t : τ) : Scheduler τ :=
  if s.running then { s with runQueue := s.runQueue ++ [t] } else s

def activate (s : Scheduler τ) (t : τ) : Scheduler τ :=
  let r := (s.task t).activate
  if r.2 then (s.setTask t r.1).perform t else s.setTask t r.1

/-- `InputImpl::notifyInput` of an input of the task. -/
def notifyInput (s : Scheduler τ) (t : τ) (i : Nat) : Scheduler τ :=
  match (s.task t).inputs.inputs[i]? with
  | some x =>
      let s := s.setTask t ((s.task t).setInput i x.notify.1)
      if x.notify.2 && x.notify.1.isActivated then s.activate t else s
  | none => s

/-- One round of the loop over the inputs in `Task::reset`. -/
def resetInput (s : Scheduler τ) (t : τ) (i : Nat) : Scheduler τ :=
  let r := (s.task t).resetInput i
  if r.2 then (s.setTask t r.1).activate t else s.setTask t r.1

def reset (s : Scheduler τ) (t : τ) : Scheduler τ :=
  let inside := (List.range (s.task t).inputs.inputs.length).foldl (fun s i => s.resetInput t i)
    (s.setTask t (s.task t).resetEnter)
  let r := (inside.task t).resetFinish
  if r.2 then (inside.setTask t r.1).perform t else inside.setTask t r.1

def start (s : Scheduler τ) (doReset : Bool) : Scheduler τ :=
  let s := { s with running := true }
  if doReset then s.associatedTasks.foldl reset s
  else s.associatedTasks.foldl
    (fun s t => if (s.task t).inputs.isActivated then s.perform t else s) s

/-- `nextTask` has returned the task, and it is executed. -/
def execute (s : Scheduler τ) (t : τ) : Scheduler τ :=
  { s with runQueue := s.runQueue.erase t }.reset t

/-- `terminate` with the removal of the pending tasks. -/
def terminate (s : Scheduler τ) : Scheduler τ := { s with running := false, runQueue := [] }

def call (s : Scheduler τ) : SchedulerCall τ → Scheduler τ
  | .construct t inputs => s.construct t inputs
  | .configure t i activations final => s.configure t i activations final
  | .setSynchron t i syncState => s.setSynchron t i syncState
  | .setCondition t condition => s.setCondition t condition
  | .notify t i => s.notifyInput t i
  | .start => s.start true
  | .execute t => s.execute t
  | .terminate => s.terminate

/-- A task is constructed once, and the scheduler is started when it is not running. -/
def Legal (s : Scheduler τ) : SchedulerCall τ → Prop
  | .construct t _ => t ∉ s.associatedTasks
  | .notify t _ => t ∈ s.associatedTasks
  | .start => s.running = false
  | .execute t => t ∈ s.runQueue
  | _ => True

def Step (s : Scheduler τ) (c : SchedulerCall τ) (u : Scheduler τ) : Prop := s.Legal c ∧ u = s.call c

/-- Notifications and runs of tasks. -/
def Works : SchedulerCall τ → Prop
  | .notify _ _ => True
  | .execute _ => True
  | _ => False

/-- An operation on the task `t`: it may end in the run queue, nothing else changes. -/
structure Concerns (t : τ) (s u : Scheduler τ) : Prop where
  others : ∀ f, f ≠ t → u.task f = s.task f
  condition : (u.task t).inputs.condition = (s.task t).inputs.condition
  associated : u.associatedTasks = s.associatedTasks
  running : u.running = s.running

private theorem Concerns.refl : Concerns t s s := ⟨fun _ _ => rfl, rfl, rfl, rfl⟩

private theorem Concerns.trans {v : Scheduler τ} (h : Concerns t s u) (h' : Concerns t u v) :
    Concerns t s v := by
  refine ⟨?_, h'.condition.trans h.condition, h'.associated.trans h.associated,
    h'.running.trans h.running⟩
  intro f hf
  rw [h'.others f hf, h.others f hf]

@[simp] theorem setTask_self (task : TaskImpl) : (s.setTask t task).task t = task := by
  simp [setTask]

private theorem setTask_concerns {task : TaskImpl}
    (h : task.inputs.condition = (s.task t).inputs.condition) : Concerns t s (s.setTask t task) := by
  refine ⟨fun _ hf => Function.update_of_ne hf _ _, ?_, rfl, rfl⟩
  rw [setTask_self]
  exact h

@[simp] theorem setTask_runQueue (task : TaskImpl) : (s.setTask t task).runQueue = s.runQueue := rfl

theorem perform_concerns : Concerns t s (s.perform t) := by
  unfold perform
  split
  · exact ⟨fun _ _ => rfl, rfl, rfl, rfl⟩
  · exact .refl

@[simp] theorem perform_task : (s.perform t).task = s.task := by
  unfold perform
  split
  · rfl
  · rfl

theorem perform_runQueue :
    (s.perform t).runQueue = if s.running then s.runQueue ++ [t] else s.runQueue := by
  unfold perform
  split
  · rfl
  · rfl

theorem activate_inputs (task : TaskImpl) : task.activate.1.inputs = task.inputs := by
  unfold TaskImpl.activate
  split
  · rfl
  · split
    · rfl
    · rfl
  · split
    · rfl
    · rfl
  · rfl
  · rfl

theorem activate_concerns : Concerns t s (s.activate t) := by
  have hcondition : (s.task t).activate.1.inputs.condition = (s.task t).inputs.condition := by
    rw [activate_inputs]
  unfold activate
  simp only
  split
  · exact (setTask_concerns hcondition).trans perform_concerns
  · exact setTask_concerns hcondition

private theorem activate_wait (hstate : (s.task t).state = .wait)
    (hactivated : (s.task t).inputs.isActivated = true) :
    ((s.activate t).task t).state = .run ∧ ((s.activate t).task t).inputs = (s.task t).inputs ∧
      (s.activate t).runQueue = if s.running then s.runQueue ++ [t] else s.runQueue := by
  have hr : (s.task t).activate = ({ s.task t with state := .run }, true) := by
    simp only [TaskImpl.activate, hstate, hactivated, if_true]
  unfold activate
  simp only [hr, if_true, perform_task, setTask_self, perform_runQueue, setTask_runQueue]
  exact ⟨trivial, trivial, rfl⟩

theorem activate_idle (hstate : (s.task t).state = .wait → (s.task t).inputs.isActivated = false)
    (hreset : (s.task t).state ≠ .reset) : s.activate t = s := by
  have hr : (s.task t).activate = (s.task t, false) := by
    cases hs : (s.task t).state with
    | wait => simp only [TaskImpl.activate, hs, hstate hs, Bool.false_eq_true, if_false]
    | run => simp only [TaskImpl.activate, hs]
    | finish => simp only [TaskImpl.activate, hs]
    | reset => exact absurd hs hreset
    | pending => simp only [TaskImpl.activate, hs]
  unfold activate
  simp only [hr, Bool.false_eq_true, if_false, setTask, Function.update_eq_self]

/-- The task is inside its reset. -/
def Resetting (s : Scheduler τ) (t : τ) : Prop :=
  (s.task t).state = .reset ∨ (s.task t).state = .pending

private theorem Resetting.activate (h : s.Resetting t) :
    (s.activate t).Resetting t ∧ (s.activate t).runQueue = s.runQueue := by
  have hr : (s.task t).activate.2 = false ∧
      ((s.task t).activate.1.state = .reset ∨ (s.task t).activate.1.state = .pending) := by
    rcases h with hs | hs
    · simp only [TaskImpl.activate, hs]
      split
      · exact ⟨trivial, Or.inr rfl⟩
      · exact ⟨trivial, Or.inl hs⟩
    · simp only [TaskImpl.activate, hs]
      exact ⟨trivial, Or.inr trivial⟩
  unfold Scheduler.activate Resetting
  simp only [hr.1, Bool.false_eq_true, if_false, setTask_self, setTask_runQueue]
  exact ⟨hr.2, trivial⟩

private theorem resetInput_state (task : TaskImpl) (i : Nat) :
    (task.resetInput i).1.state = task.state := by
  unfold TaskImpl.resetInput
  split
  · rfl
  · rfl

private theorem resetInput_condition (task : TaskImpl) (i : Nat) :
    (task.resetInput i).1.inputs.condition = task.inputs.condition := by
  unfold TaskImpl.resetInput
  split
  · rfl
  · rfl

theorem resetFinish_inputs (task : TaskImpl) : task.resetFinish.1.inputs = task.inputs := by
  unfold TaskImpl.resetFinish
  split
  · rfl
  · rfl

private theorem Resetting.resetInput (h : s.Resetting t) (i : Nat) :
    (s.resetInput t i).Resetting t ∧ (s.resetInput t i).runQueue = s.runQueue ∧
      Concerns t s (s.resetInput t i) := by
  have hset : (s.setTask t ((s.task t).resetInput i).1).Resetting t := by
    unfold Resetting
    rw [setTask_self, resetInput_state]
    exact h
  unfold Scheduler.resetInput
  simp only
  split
  · obtain ⟨hreset, hqueue⟩ := hset.activate
    exact ⟨hreset, hqueue, (setTask_concerns (resetInput_condition _ i)).trans activate_concerns⟩
  · exact ⟨hset, rfl, setTask_concerns (resetInput_condition _ i)⟩

private theorem Resetting.resetInputs (h : s.Resetting t) (l : List Nat) :
    (l.foldl (fun s i => s.resetInput t i) s).Resetting t ∧
      (l.foldl (fun s i => s.resetInput t i) s).runQueue = s.runQueue ∧
      Concerns t s (l.foldl (fun s i => s.resetInput t i) s) := by
  induction l generalizing s with
  | nil => exact ⟨h, rfl, .refl⟩
  | cons i l ih =>
      obtain ⟨hreset, hqueue, hconcerns⟩ := h.resetInput i
      obtain ⟨hreset', hqueue', hconcerns'⟩ := ih hreset
      exact ⟨hreset', hqueue'.trans hqueue, hconcerns.trans hconcerns'⟩

/-- Behind its reset a task waits, or it runs and is in the run queue of a running scheduler. -/
theorem reset_concerns :
    Concerns t s (s.reset t) ∧
      (((s.reset t).task t).state = .wait ∧ (s.reset t).runQueue = s.runQueue ∨
        ((s.reset t).task t).state = .run ∧
          (s.reset t).runQueue = if s.running then s.runQueue ++ [t] else s.runQueue) := by
  let entered := s.setTask t (s.task t).resetEnter
  have hentered : entered.Resetting t := by
    unfold Resetting
    rw [setTask_self]
    exact Or.inl rfl
  obtain ⟨_, hqueue, hconcerns⟩ :=
    hentered.resetInputs (List.range (s.task t).inputs.inputs.length)
  have hbegin : Concerns t s entered := setTask_concerns rfl
  have hinside := hbegin.trans hconcerns
  unfold reset
  simp only
  split
  · rename_i hfinish
    have hset := hinside.trans (setTask_concerns (congrArg InputArray.condition (resetFinish_inputs _)))
    refine ⟨hset.trans perform_concerns, Or.inr ⟨?_, ?_⟩⟩
    · rw [perform_task, setTask_self]
      unfold TaskImpl.resetFinish at hfinish ⊢
      split at hfinish
      · rw [if_pos ‹_›]
      · exact absurd hfinish (by simp)
    · rw [perform_runQueue, setTask_runQueue, hqueue]
      have hrunning := hinside.running
      rw [show (Scheduler.setTask _ t _).running = s.running from hrunning]
      rfl
  · rename_i hfinish
    have hset := hinside.trans (setTask_concerns (congrArg InputArray.condition (resetFinish_inputs _)))
    refine ⟨hset, Or.inl ⟨?_, hqueue⟩⟩
    rw [setTask_self]
    unfold TaskImpl.resetFinish at hfinish ⊢
    split at hfinish
    · exact absurd rfl hfinish
    · rw [if_neg ‹_›]

/-- A notification starts a waiting task, or leaves the states and the run queue as they are. -/
theorem notifyInput_concerns (hstate : (s.task t).state ≠ .reset) :
    Concerns t s (s.notifyInput t i) ∧
      (((s.notifyInput t i).task t).state = (s.task t).state ∧
          (s.notifyInput t i).runQueue = s.runQueue ∨
        (s.task t).state = .wait ∧ ((s.notifyInput t i).task t).state = .run ∧
          (s.notifyInput t i).runQueue = if s.running then s.runQueue ++ [t] else s.runQueue) := by
  unfold notifyInput
  split
  · rename_i x hx
    let counted := s.setTask t ((s.task t).setInput i x.notify.1)
    have hcounted : (counted.task t).state = (s.task t).state := by
      rw [setTask_self]
      rfl
    have hset : Concerns t s counted := setTask_concerns rfl
    simp only
    split
    · refine ⟨hset.trans activate_concerns, ?_⟩
      by_cases hwait : (counted.task t).state = .wait ∧ (counted.task t).inputs.isActivated = true
      · obtain ⟨hrun, _, hqueue⟩ := activate_wait hwait.1 hwait.2
        exact Or.inr ⟨hcounted ▸ hwait.1, hrun, hqueue⟩
      · have hidle : counted.activate t = counted := by
          apply activate_idle
          · intro hw
            simpa using fun hactivated => hwait ⟨hw, hactivated⟩
          · rw [hcounted]
            exact hstate
        refine Or.inl ⟨?_, ?_⟩
        · rw [show (s.setTask t ((s.task t).setInput i x.notify.1)).activate t = counted from hidle]
          exact hcounted
        · rw [show (s.setTask t ((s.task t).setInput i x.notify.1)).activate t = counted from hidle]
          rfl
    · exact ⟨hset, Or.inl ⟨hcounted, rfl⟩⟩
  · exact ⟨.refl, Or.inl ⟨rfl, rfl⟩⟩

end Scheduler

end TaskingFramework
