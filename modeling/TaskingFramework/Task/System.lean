import TaskingFramework.Foundation.Runs
import TaskingFramework.Task.InputArray

/-!
# Tasks, notifying threads and executors

The system of all tasks of a program: threads that notify inputs, and executors that take tasks out
of the run queues of their schedulers and execute them. An action of the step relation is one
critical section of an input mutex, of a `taskMutex` or of a `synchronizationMutex`, or an unlocked
read between two of them. A run queue hands out every queued task once, in any order. Channels
without data do nothing in `synchronizeStart`, `synchronizeEnd` and `reset`.
-/

namespace TaskingFramework

inductive TaskState where
  | wait
  | run
  | finish
  | reset
  | pending
  deriving DecidableEq, Repr

structure TaskImpl where
  state : TaskState
  inputs : InputArray

/-- Where a thread stands in `Task::reset`. -/
inductive ResetPc where
  | enter
  | input (i : Nat)    -- before the section of input `i`
  | activate (i : Nat) -- behind it, before `activate`
  | finish
  deriving DecidableEq

namespace TaskImpl

/-- The answer tells whether `perform` is called. -/
def activate (task : TaskImpl) : TaskImpl × Bool :=
  match task.state with
  | .pending => (task, false)
  | .reset => (if task.inputs.isActivated then { task with state := .pending } else task, false)
  | .wait => if task.inputs.isActivated then ({ task with state := .run }, true) else (task, false)
  | .run | .finish => (task, false)

def setInput (task : TaskImpl) (i : Nat) (x : Input) : TaskImpl :=
  { task with inputs := task.inputs.set i x }

/-- The first section of `Task::reset`. -/
def resetEnter (task : TaskImpl) : TaskImpl := { task with state := .reset }

/-- The section of input `i` in `Task::reset`. The answer tells whether `activate` is called. -/
def resetInput (task : TaskImpl) (i : Nat) : TaskImpl × Bool :=
  match task.inputs.inputs[i]? with
  | some x => (task.setInput i x.reset.1, x.reset.2)
  | none => (task, false)

/-- The last section of `Task::reset`. The answer tells whether `perform` is called. -/
def resetFinish (task : TaskImpl) : TaskImpl × Bool :=
  if task.state = .pending ∧ task.inputs.isActivated = true then ({ task with state := .run }, true)
  else ({ task with state := .wait }, false)

def isExecuted (task : TaskImpl) : Bool := task.state = .finish

/-- The loop over the inputs in `Task::reset`. -/
def nextInput (task : TaskImpl) (i : Nat) : ResetPc :=
  if i < task.inputs.inputs.length then .input i else .finish

theorem length_resetInput (task : TaskImpl) (i : Nat) :
    (task.resetInput i).1.inputs.inputs.length = task.inputs.inputs.length := by
  unfold resetInput
  split
  · exact List.length_set
  · rfl

end TaskImpl

/-- What is fixed while tasks run: the lists that schedulers, executors and groups hold. -/
structure Layout (τ σ ε γ : Type*) where
  associatedScheduler : τ → σ
  associatedTasks : σ → List τ
  mem_associatedTasks : ∀ task scheduler,
    task ∈ associatedTasks scheduler ↔ associatedScheduler task = scheduler
  scheduler : ε → σ
  group : τ → Option γ
  taskList : γ → List τ

/-- One scheduler with one executor and one task. -/
def Layout.single : Layout Unit Unit Unit Unit where
  associatedScheduler _ := ()
  associatedTasks _ := [()]
  mem_associatedTasks := by simp
  scheduler _ := ()
  group _ := none
  taskList _ := []

/-- Where a thread stands in `notifyInput`. -/
inductive NotifierPc (τ : Type*) where
  | idle
  | counted (task : τ) (i : Nat) -- left the input mutex, before `isActivated`
  | activating (task : τ)        -- before `activate`
  deriving DecidableEq

/-- Where an executor stands in `SchedulerImpl::execute`. From `finishing` on it holds the
`synchronizationMutex` of its scheduler. -/
inductive ExecutePc (τ γ : Type*) where
  | idle
  | fetched (task : τ)
  | executing (task : τ)
  | finishing (task : τ) (group : γ)
  | checking (group : γ) (members : List τ)
  | resetting (task : τ) (pc : ResetPc) (members : List τ) -- the members are reset behind the task
  | leaving
  deriving DecidableEq

/-- The loop of `GroupImpl::reset`. -/
def ExecutePc.resetMembers {τ γ : Type*} : List τ → ExecutePc τ γ
  | [] => .leaving
  | t :: members => .resetting t .enter members

def Layout.finalizeExecution {τ σ ε γ : Type*} (L : Layout τ σ ε γ) (t : τ) : ExecutePc τ γ :=
  match L.group t with
  | none => .resetting t .enter []
  | some group => .finishing t group

/-- Tasks `τ`, schedulers `σ`, executors `ε`, groups `γ` and notifying threads `ν`. -/
structure System (τ σ ε γ ν : Type*) where
  task : τ → TaskImpl
  running : σ → Bool
  runQueue : σ → List τ
  synchronizationMutex : σ → Option ε
  executor : ε → ExecutePc τ γ
  notifier : ν → NotifierPc τ

inductive SystemAction (τ ε ν : Type*) where
  | notify (thread : ν) (task : τ) (i : Nat)
  | check (thread : ν)
  | activate (thread : ν)
  | nextTask (executor : ε) (task : τ)
  | synchronizeStart (executor : ε)
  | executed (executor : ε) (task : τ)
  | finish (executor : ε)
  | isExecuted (executor : ε)
  | reset (executor : ε)
  | leave (executor : ε)
  deriving DecidableEq

namespace System

variable {τ σ ε γ ν : Type*} [DecidableEq τ] [DecidableEq σ] [DecidableEq ε] [DecidableEq γ]
  [DecidableEq ν]

/-- All tasks are configured, nothing has been started. -/
def constructed (inputs : τ → InputArray) : System τ σ ε γ ν where
  task t := ⟨.finish, inputs t⟩
  running _ := false
  runQueue _ := []
  synchronizationMutex _ := none
  executor _ := .idle
  notifier _ := .idle

def setTask (s : System τ σ ε γ ν) (t : τ) (task : TaskImpl) : System τ σ ε γ ν :=
  { s with task := Function.update s.task t task }

def setExecutor (s : System τ σ ε γ ν) (e : ε) (pc : ExecutePc τ γ) : System τ σ ε γ ν :=
  { s with executor := Function.update s.executor e pc }

def setNotifier (s : System τ σ ε γ ν) (v : ν) (pc : NotifierPc τ) : System τ σ ε γ ν :=
  { s with notifier := Function.update s.notifier v pc }

def setMutex (s : System τ σ ε γ ν) (scheduler : σ) (owner : Option ε) : System τ σ ε γ ν :=
  { s with synchronizationMutex := Function.update s.synchronizationMutex scheduler owner }

def setRunQueue (s : System τ σ ε γ ν) (scheduler : σ) (queue : List τ) : System τ σ ε γ ν :=
  { s with runQueue := Function.update s.runQueue scheduler queue }

section Operations

variable (L : Layout τ σ ε γ) (s : System τ σ ε γ ν) (t : τ)

def perform : System τ σ ε γ ν :=
  let scheduler := L.associatedScheduler t
  if s.running scheduler then s.setRunQueue scheduler (s.runQueue scheduler ++ [t]) else s

def activate : System τ σ ε γ ν :=
  let r := (s.task t).activate
  if r.2 then (s.setTask t r.1).perform L t else s.setTask t r.1

def resetInput (i : Nat) : System τ σ ε γ ν × Bool :=
  let r := (s.task t).resetInput i
  (s.setTask t r.1, r.2)

def resetFinish : System τ σ ε γ ν :=
  let r := (s.task t).resetFinish
  if r.2 then (s.setTask t r.1).perform L t else s.setTask t r.1

/-- `Task::reset` without other threads. -/
def reset : System τ σ ε γ ν :=
  let inside := (List.range (s.task t).inputs.inputs.length).foldl
    (fun s i =>
      let r := s.resetInput t i
      if r.2 then r.1.activate L t else r.1)
    (s.setTask t (s.task t).resetEnter)
  inside.resetFinish L t

/-- `Scheduler::start` without other threads. -/
def start (doReset : Bool) (scheduler : σ) : System τ σ ε γ ν :=
  let s := { s with running := Function.update s.running scheduler true }
  if doReset then (L.associatedTasks scheduler).foldl (reset L) s
  else
    (L.associatedTasks scheduler).foldl
      (fun s t => if (s.task t).inputs.isActivated then s.perform L t else s) s

end Operations

/-- One action, where it is enabled. -/
def step (L : Layout τ σ ε γ) (s : System τ σ ε γ ν) :
    SystemAction τ ε ν → Option (System τ σ ε γ ν)
  | .notify v t i =>
      match s.notifier v, (s.task t).inputs.inputs[i]? with
      | .idle, some x =>
          some ((s.setTask t ((s.task t).setInput i x.notify.1)).setNotifier v
            (if x.notify.2 then .counted t i else .idle))
      | _, _ => none
  | .check v =>
      match s.notifier v with
      | .counted t i =>
          match (s.task t).inputs.inputs[i]? with
          | some x => some (s.setNotifier v (if x.isActivated then .activating t else .idle))
          | none => none
      | _ => none
  | .activate v =>
      match s.notifier v with
      | .activating t => some ((s.activate L t).setNotifier v .idle)
      | _ => none
  | .nextTask e t =>
      let scheduler := L.scheduler e
      if s.executor e = .idle ∧ t ∈ s.runQueue scheduler then
        some ((s.setRunQueue scheduler ((s.runQueue scheduler).erase t)).setExecutor e (.fetched t))
      else none
  | .synchronizeStart e =>
      match s.executor e with
      | .fetched t =>
          if s.synchronizationMutex (L.scheduler e) = none then some (s.setExecutor e (.executing t))
          else none
      | _ => none
  | .executed e t =>
      if s.executor e = .executing t ∧ s.synchronizationMutex (L.scheduler e) = none then
        some ((s.setMutex (L.scheduler e) (some e)).setExecutor e (L.finalizeExecution t))
      else none
  | .finish e =>
      match s.executor e with
      | .finishing t group =>
          some ((s.setTask t { s.task t with state := .finish }).setExecutor e
            (.checking group (L.taskList group)))
      | _ => none
  | .isExecuted e =>
      match s.executor e with
      | .checking group (t :: members) =>
          some (s.setExecutor e (if (s.task t).isExecuted then .checking group members else .leaving))
      | .checking group [] =>
          some (s.setExecutor e (.resetMembers (L.taskList group)))
      | _ => none
  | .reset e =>
      match s.executor e with
      | .resetting t .enter members =>
          some ((s.setTask t (s.task t).resetEnter).setExecutor e
            (.resetting t ((s.task t).nextInput 0) members))
      | .resetting t (.input i) members =>
          let r := s.resetInput t i
          some (r.1.setExecutor e
            (.resetting t (if r.2 then .activate i else (s.task t).nextInput (i + 1)) members))
      | .resetting t (.activate i) members =>
          some ((s.activate L t).setExecutor e (.resetting t ((s.task t).nextInput (i + 1)) members))
      | .resetting t .finish members =>
          some ((s.resetFinish L t).setExecutor e (.resetMembers members))
      | _ => none
  | .leave e =>
      if s.executor e = .leaving then
        some ((s.setMutex (L.scheduler e) none).setExecutor e .idle)
      else none

/-- The interleavings of the actions. -/
def Step (L : Layout τ σ ε γ) (s : System τ σ ε γ ν) (a : SystemAction τ ε ν)
    (s' : System τ σ ε γ ν) : Prop :=
  s.step L a = some s'

/-- What a step does: where the action is enabled, and what it leads to. -/
inductive Acts (L : Layout τ σ ε γ) (s : System τ σ ε γ ν) :
    SystemAction τ ε ν → System τ σ ε γ ν → Prop where
  | notify {v : ν} {t : τ} {i : Nat} {x : Input} (hv : s.notifier v = .idle)
      (hx : (s.task t).inputs.inputs[i]? = some x) :
      Acts L s (.notify v t i) ((s.setTask t ((s.task t).setInput i x.notify.1)).setNotifier v
        (if x.notify.2 then .counted t i else .idle))
  | check {v : ν} {t : τ} {i : Nat} {x : Input} (hv : s.notifier v = .counted t i)
      (hx : (s.task t).inputs.inputs[i]? = some x) :
      Acts L s (.check v) (s.setNotifier v (if x.isActivated then .activating t else .idle))
  | activate {v : ν} {t : τ} (hv : s.notifier v = .activating t) :
      Acts L s (.activate v) ((s.activate L t).setNotifier v .idle)
  | nextTask {e : ε} {t : τ} (he : s.executor e = .idle) (ht : t ∈ s.runQueue (L.scheduler e)) :
      Acts L s (.nextTask e t)
        ((s.setRunQueue (L.scheduler e) ((s.runQueue (L.scheduler e)).erase t)).setExecutor e
          (.fetched t))
  | synchronizeStart {e : ε} {t : τ} (he : s.executor e = .fetched t)
      (hfree : s.synchronizationMutex (L.scheduler e) = none) :
      Acts L s (.synchronizeStart e) (s.setExecutor e (.executing t))
  | executed {e : ε} {t : τ} (he : s.executor e = .executing t)
      (hfree : s.synchronizationMutex (L.scheduler e) = none) :
      Acts L s (.executed e t)
        ((s.setMutex (L.scheduler e) (some e)).setExecutor e (L.finalizeExecution t))
  | finish {e : ε} {t : τ} {group : γ} (he : s.executor e = .finishing t group) :
      Acts L s (.finish e) ((s.setTask t { s.task t with state := .finish }).setExecutor e
        (.checking group (L.taskList group)))
  | isExecuted {e : ε} {group : γ} {t : τ} {members : List τ}
      (he : s.executor e = .checking group (t :: members)) :
      Acts L s (.isExecuted e) (s.setExecutor e
        (if (s.task t).isExecuted then .checking group members else .leaving))
  | areAllExecuted {e : ε} {group : γ} (he : s.executor e = .checking group []) :
      Acts L s (.isExecuted e) (s.setExecutor e (.resetMembers (L.taskList group)))
  | resetEnter {e : ε} {t : τ} {members : List τ} (he : s.executor e = .resetting t .enter members) :
      Acts L s (.reset e) ((s.setTask t (s.task t).resetEnter).setExecutor e
        (.resetting t ((s.task t).nextInput 0) members))
  | resetInput {e : ε} {t : τ} {i : Nat} {members : List τ}
      (he : s.executor e = .resetting t (.input i) members) :
      Acts L s (.reset e) ((s.resetInput t i).1.setExecutor e (.resetting t
        (if (s.resetInput t i).2 then .activate i else (s.task t).nextInput (i + 1)) members))
  | resetActivate {e : ε} {t : τ} {i : Nat} {members : List τ}
      (he : s.executor e = .resetting t (.activate i) members) :
      Acts L s (.reset e)
        ((s.activate L t).setExecutor e (.resetting t ((s.task t).nextInput (i + 1)) members))
  | resetFinish {e : ε} {t : τ} {members : List τ}
      (he : s.executor e = .resetting t .finish members) :
      Acts L s (.reset e) ((s.resetFinish L t).setExecutor e (.resetMembers members))
  | leave {e : ε} (he : s.executor e = .leaving) :
      Acts L s (.leave e) ((s.setMutex (L.scheduler e) none).setExecutor e .idle)

theorem step_acts {L : Layout τ σ ε γ} {s s' : System τ σ ε γ ν} {a : SystemAction τ ε ν}
    (h : Step L s a s') : s.Acts L a s' := by
  cases a with
  | notify v t i =>
      cases hv : s.notifier v with
      | counted | activating => simp [Step, step, hv] at h
      | idle =>
          cases hx : (s.task t).inputs.inputs[i]? with
          | none => simp [Step, step, hv, hx] at h
          | some x =>
              simp only [Step, step, hv, hx, Option.some.injEq] at h
              subst s'
              exact .notify hv hx
  | check v =>
      cases hv : s.notifier v with
      | idle | activating => simp [Step, step, hv] at h
      | counted t i =>
          cases hx : (s.task t).inputs.inputs[i]? with
          | none => simp [Step, step, hv, hx] at h
          | some x =>
              simp only [Step, step, hv, hx, Option.some.injEq] at h
              subst s'
              exact .check hv hx
  | activate v =>
      cases hv : s.notifier v with
      | idle | counted => simp [Step, step, hv] at h
      | activating t =>
          simp only [Step, step, hv, Option.some.injEq] at h
          subst s'
          exact .activate hv
  | nextTask e t =>
      simp only [Step, step, Option.ite_none_right_eq_some, Option.some.injEq] at h
      obtain ⟨⟨he, ht⟩, rfl⟩ := h
      exact .nextTask he ht
  | synchronizeStart e =>
      cases he : s.executor e with
      | fetched t =>
          simp only [Step, step, he, Option.ite_none_right_eq_some, Option.some.injEq] at h
          obtain ⟨hfree, rfl⟩ := h
          exact .synchronizeStart he hfree
      | idle | executing | finishing | checking | resetting | leaving => simp [Step, step, he] at h
  | executed e t =>
      simp only [Step, step, Option.ite_none_right_eq_some, Option.some.injEq] at h
      obtain ⟨⟨he, hfree⟩, rfl⟩ := h
      exact .executed he hfree
  | finish e =>
      cases he : s.executor e with
      | finishing t group =>
          simp only [Step, step, he, Option.some.injEq] at h
          subst s'
          exact .finish he
      | idle | fetched | executing | checking | resetting | leaving => simp [Step, step, he] at h
  | isExecuted e =>
      cases he : s.executor e with
      | checking group members =>
          cases members with
          | nil =>
              simp only [Step, step, he, Option.some.injEq] at h
              subst s'
              exact .areAllExecuted he
          | cons t members =>
              simp only [Step, step, he, Option.some.injEq] at h
              subst s'
              exact .isExecuted he
      | idle | fetched | executing | finishing | resetting | leaving => simp [Step, step, he] at h
  | reset e =>
      cases he : s.executor e with
      | resetting t pc members =>
          cases pc <;> simp only [Step, step, he, Option.some.injEq] at h <;> subst s'
          · exact .resetEnter he
          · exact .resetInput he
          · exact .resetActivate he
          · exact .resetFinish he
      | idle | fetched | executing | finishing | checking | leaving => simp [Step, step, he] at h
  | leave e =>
      simp only [Step, step, Option.ite_none_right_eq_some, Option.some.injEq] at h
      obtain ⟨he, rfl⟩ := h
      exact .leave he

end System

end TaskingFramework
