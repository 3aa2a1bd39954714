import TaskingFramework.Linux.AtRest
import TaskingFramework.Task.AtRest

/-!
# Tasks on executor threads

The executors of a scheduler execute its tasks in the threads of the Linux execution model. A thread
whose `activate` or `reset` performs a task queues it and goes on to `signal`; an executor that has
fetched a task is back in the loop of its thread when it has left `execute`. The steps of the tasks
and the steps of the threads are those of the two models.
-/

set_option linter.unusedSectionVars false

namespace TaskingFramework

open Foundation

namespace System

variable {τ σ ε γ ν : Type*} [DecidableEq τ] [DecidableEq σ] [DecidableEq ε] [DecidableEq γ]
  [DecidableEq ν] (L : Layout τ σ ε γ) (s : System τ σ ε γ ν)

/-- The task that `perform` queues. -/
def performed (t : τ) (activated : Bool) : Option τ :=
  if activated ∧ s.running (L.associatedScheduler t) then some t else none

/-- The task that a step other than `nextTask` queues. -/
def queues : SystemAction τ ε ν → Option τ
  | .activate v =>
      match s.notifier v with
      | .activating t => s.performed L t (s.task t).activate.2
      | .idle | .counted _ _ => none
  | .reset e =>
      match s.executor e with
      | .resetting t (.activate _) _ => s.performed L t (s.task t).activate.2
      | .resetting t .finish _ => s.performed L t (s.task t).resetFinish.2
      | _ => none
  | .notify _ _ _ | .check _ | .nextTask _ _ | .synchronizeStart _ | .executed _ _ | .finish _
  | .isExecuted _
  | .leave _ => none

variable {L s} {s' : System τ σ ε γ ν} {a : SystemAction τ ε ν} {t : τ}

private theorem runQueue_activate : (s.activate L t).runQueue =
    (s.performed L t (s.task t).activate.2).elim s.runQueue fun u =>
      Function.update s.runQueue (L.associatedScheduler u)
          (s.runQueue (L.associatedScheduler u) ++ [u]) := by
  by_cases hact : (s.task t).activate.2 = true
  · by_cases hr : s.running (L.associatedScheduler t) = true
    · simp [activate, perform, performed, hact, hr, setTask, setRunQueue]
    · simp [activate, perform, performed, hact, hr, setTask]
  · simp [activate, performed, hact, setTask]

private theorem runQueue_resetFinish : (s.resetFinish L t).runQueue =
    (s.performed L t (s.task t).resetFinish.2).elim s.runQueue fun u =>
      Function.update s.runQueue (L.associatedScheduler u)
          (s.runQueue (L.associatedScheduler u) ++ [u]) := by
  by_cases hact : (s.task t).resetFinish.2 = true
  · by_cases hr : s.running (L.associatedScheduler t) = true
    · simp [resetFinish, perform, performed, hact, hr, setTask, setRunQueue]
    · simp [resetFinish, perform, performed, hact, hr, setTask]
  · simp [resetFinish, performed, hact, setTask]

theorem runQueue_step (h : Step L s a s') (ha : ∀ e t, a ≠ .nextTask e t) : s'.runQueue =
    (s.queues L a).elim s.runQueue fun u =>
      Function.update s.runQueue (L.associatedScheduler u)
          (s.runQueue (L.associatedScheduler u) ++ [u]) := by
  cases step_acts h with
  | notify | check | synchronizeStart | executed | finish | isExecuted | areAllExecuted | leave => rfl
  | nextTask => exact absurd rfl (ha _ _)
  | activate hv =>
      simp only [queues, hv]
      exact runQueue_activate
  | resetEnter he | resetInput he =>
      simp only [queues, he]
      rfl
  | resetActivate he =>
      simp only [queues, he]
      exact runQueue_activate
  | resetFinish he =>
      simp only [queues, he]
      exact runQueue_resetFinish

end System

/-- Executors `n`, tasks `τ`, groups `γ` and other threads `κ` of one scheduler. Executors notify
inputs too. -/
structure Runtime (n : Nat) (τ γ κ : Type*) where
  model : ExecutionModel n τ κ
  system : System τ Unit (Fin n) γ (κ ⊕ Fin n)

inductive RuntimeAction (n : Nat) (τ κ : Type*) where
  | system (action : SystemAction τ (Fin n) (κ ⊕ Fin n))
  | nextTask (executor : Fin n) (task : τ)
  | thread (action : ExecutionAction n τ κ)

/-- What the tasks see of an action. -/
def RuntimeAction.task {n : Nat} {τ κ : Type*} :
    RuntimeAction n τ κ → Option (SystemAction τ (Fin n) (κ ⊕ Fin n))
  | .system a => some a
  | .nextTask e t => some (.nextTask e t)
  | .thread _ => none

/-- The thread that performs a task in a step. -/
def SystemAction.performer {τ κ : Type*} {n : Nat} :
    SystemAction τ (Fin n) (κ ⊕ Fin n) → Option (κ ⊕ Fin n)
  | .activate v => some v
  | .reset e => some (.inr e)
  | .notify _ _ _ | .check _ | .nextTask _ _ | .synchronizeStart _ | .executed _ _ | .finish _
  | .isExecuted _
  | .leave _ => none

namespace Runtime

variable {n : Nat} {τ γ κ : Type*} [DecidableEq τ] [DecidableEq γ] [DecidableEq κ]

/-- An executor notifies inputs from `execute` of a task or from an event. -/
def MayNotify (s : Runtime n τ γ κ) : κ ⊕ Fin n → Prop
  | .inl _ => True
  | .inr e => s.model.pc e = .handling ∨ ∃ t, s.system.executor e = .executing t

/-- A thread inside `signal` has to return first, and so has an executor that is inside
`notifyInput`. -/
def Allows (s : Runtime n τ γ κ) : SystemAction τ (Fin n) (κ ⊕ Fin n) → Prop
  | .notify v _ _ => s.model.caller v = .idle ∧ s.MayNotify v
  | .check v | .activate v => s.model.caller v = .idle
  | .nextTask _ _ => False
  | .executed e _ => s.model.caller (.inr e) = .idle ∧ s.system.notifier (.inr e) = .idle
  | .synchronizeStart e | .finish e | .isExecuted e | .reset e | .leave e =>
      s.model.caller (.inr e) = .idle

/-- The steps of the threads between those of the tasks. -/
def Threads (s : Runtime n τ γ κ) : ExecutionAction n τ κ → Prop
  | .queue _ _ | .nextTask _ (some _) => False
  | .executed e => s.system.executor e = .idle
  | .handled e => s.system.notifier (.inr e) = .idle
  | .request _ | .signal _ | .wakeUp _ | .wait _ | .resume _ | .isPending _ _ | .nextTask _ none
  | .enlist _
  | .waitUntilEmpty | .resumeWaiter => True

inductive Step (L : Layout τ Unit (Fin n) γ) (s : Runtime n τ γ κ) :
    RuntimeAction n τ κ → Runtime n τ γ κ → Prop where
  | system {a : SystemAction τ (Fin n) (κ ⊕ Fin n)} {system : System τ Unit (Fin n) γ (κ ⊕ Fin n)}
      (hallows : s.Allows a) (hqueues : s.system.queues L a = none) (hstep : s.system.Step L a system) :
      Step L s (.system a) ⟨s.model, system⟩
  | perform {a : SystemAction τ (Fin n) (κ ⊕ Fin n)} {v : κ ⊕ Fin n} {t : τ}
      {model : ExecutionModel n τ κ}
      {system : System τ Unit (Fin n) γ (κ ⊕ Fin n)} (hallows : s.Allows a)
      (hqueues : s.system.queues L a = some t)
      (hperformer : a.performer = some v) (hstep : s.system.Step L a system)
      (hqueue : s.model.Step (.queue v t) model) :
      Step L s (.system a) ⟨model, system⟩
  | nextTask {e : Fin n} {t : τ} {model : ExecutionModel n τ κ}
      {system : System τ Unit (Fin n) γ (κ ⊕ Fin n)}
      (hstep : s.system.Step L (.nextTask e t) system)
      (hnext : s.model.Step (.nextTask e (some t)) model) :
      Step L s (.nextTask e t) ⟨model, system⟩
  | thread {b : ExecutionAction n τ κ} {model : ExecutionModel n τ κ} (hthreads : s.Threads b)
      (hstep : s.model.Step b model) : Step L s (.thread b) ⟨model, s.system⟩

/-- No request is dropped. -/
def Heard (s : Runtime n τ γ κ) : RuntimeAction n τ κ → Prop
  | .thread b => s.model.Heard b
  | .system _ | .nextTask _ _ => True

/-- The steps that bring no new work: no input is notified, and no event is pending. -/
def Internal : RuntimeAction n τ κ → Prop
  | .system a => ∀ v t i, a ≠ .notify v t i
  | .nextTask _ _ => True
  | .thread b => ExecutionModel.Internal b

def InternalStep (L : Layout τ Unit (Fin n) γ) (s : Runtime n τ γ κ) (a : RuntimeAction n τ κ)
    (s' : Runtime n τ γ κ) : Prop :=
  Step L s a s' ∧ s.Heard a ∧ Internal a

/-- Behind `start(true)`, when the tasks that it has activated have been queued and none has been
fetched. -/
structure Opened (L : Layout τ Unit (Fin n) γ) (inputs : τ → InputArray) (s : Runtime n τ γ κ) :
    Prop where
  system : s.system = System.started L inputs [()]
  model : ∃ acts, Run (fun m a m' => m.Step a m' ∧ m.Heard a) ExecutionModel.init acts s.model ∧
    ExecutionModel.fetchedTasks acts = []
  runQueue : s.model.runQueue = s.system.runQueue ()

end Runtime

end TaskingFramework
