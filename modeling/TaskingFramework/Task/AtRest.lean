import TaskingFramework.Task.Attended
import TaskingFramework.Task.Serial
import TaskingFramework.Foundation.Rest

/-!
# The tasks come to rest

When no input is notified any more, the executors and the threads inside `notifyInput` only have a
bounded number of steps left, whatever groups the tasks have joined: every call of `activate` in a
reset takes missed notifications away. They end with all executors idle and their run queues empty,
and no task that waits outside a group is activated.
-/

set_option linter.unusedSectionVars false

namespace TaskingFramework

open Foundation

section Steps

variable {τ σ ε γ ν : Type*}

/-- The steps left in the reset of a task with `n` inputs; a call of `activate` may queue it for `q`
more. -/
def ResetPc.steps (n q : Nat) : ResetPc → Nat
  | .enter => 2 * n + 4
  | .input i => 2 * (n - i) + 3
  | .activate i => 2 * (n - i) + 2 + q
  | .finish => 1

@[simp] theorem steps_enter (n q : Nat) : ResetPc.enter.steps n q = 2 * n + 4 := rfl

@[simp] theorem steps_input (n q i : Nat) : (ResetPc.input i).steps n q = 2 * (n - i) + 3 := rfl

@[simp] theorem steps_activate (n q i : Nat) :
    (ResetPc.activate i).steps n q = 2 * (n - i) + 2 + q := rfl

@[simp] theorem steps_finish (n q : Nat) : ResetPc.finish.steps n q = 1 := rfl

namespace Layout

variable (L : Layout τ σ ε γ) (len : τ → Nat)

/-- The resets of these tasks without what they activate. -/
def resetSteps (tasks : List τ) : Nat := (tasks.map fun t => 2 * len t + 4).sum

/-- The check of a group and its reset. -/
def groupSteps (group : γ) : Nat := 2 + (L.taskList group).length + resetSteps len (L.taskList group)

def finalizeSteps (t : τ) : Nat :=
  match L.group t with
  | none => 1 + (2 * len t + 4)
  | some group => 1 + L.groupSteps len group

/-- The steps for a task in a run queue. -/
def taskSteps (t : τ) : Nat := L.finalizeSteps len t + 3

end Layout

/-- The steps left to an executor. -/
def ExecutePc.steps (L : Layout τ σ ε γ) (len : τ → Nat) : ExecutePc τ γ → Nat
  | .idle => 0
  | .fetched t => L.finalizeSteps len t + 2
  | .executing t => L.finalizeSteps len t + 1
  | .finishing _ group => 1 + L.groupSteps len group
  | .checking group members => 2 + members.length + Layout.resetSteps len (L.taskList group)
  | .resetting t pc members => 1 + pc.steps (len t) (L.taskSteps len t) + Layout.resetSteps len members
  | .leaving => 1

/-- The steps left to a notifying thread; it may queue the task. -/
def NotifierPc.steps (L : Layout τ σ ε γ) (len : τ → Nat) : NotifierPc τ → Nat
  | .idle => 0
  | .activating t => L.taskSteps len t + 1
  | .counted t _ => L.taskSteps len t + 2

/-- The steps a task may still give rise to: a pending one may be queued, and so it may for each missed
notification. -/
def TaskImpl.steps (q : Nat) (task : TaskImpl) : Nat :=
  (if task.state = .pending then q else 0) + q * (task.inputs.inputs.map Input.missedNotifications).sum

variable {L : Layout τ σ ε γ} {len : τ → Nat} {t : τ} {task : TaskImpl} {i q : Nat}

private theorem steps_nextInput_le (task : TaskImpl) :
    (task.nextInput i).steps task.inputs.inputs.length q ≤
    2 * (task.inputs.inputs.length - i) + 3 := by
  unfold TaskImpl.nextInput
  split
  · exact le_rfl
  · simp only [ResetPc.steps]
    omega

private theorem steps_nextInput_succ_le (task : TaskImpl) :
    (task.nextInput (i + 1)).steps task.inputs.inputs.length q ≤
    2 * (task.inputs.inputs.length - i) + 1 := by
  unfold TaskImpl.nextInput
  split
  · simp only [ResetPc.steps]
    omega
  · simp only [ResetPc.steps]
    omega

private theorem steps_resetMembers (members : List τ) :
    (ExecutePc.resetMembers members : ExecutePc τ γ).steps L len =
        1 + Layout.resetSteps len members := by
  cases members with
  | nil => rfl
  | cons t members =>
      simp only [ExecutePc.resetMembers, ExecutePc.steps, ResetPc.steps, Layout.resetSteps,
        List.map_cons,
        List.sum_cons]
      omega

private theorem steps_finalizeExecution :
    (L.finalizeExecution t).steps L len = L.finalizeSteps len t := by
  unfold Layout.finalizeExecution Layout.finalizeSteps
  cases L.group t with
  | none => simp [ExecutePc.steps, ResetPc.steps, Layout.resetSteps]
  | some group => simp [ExecutePc.steps]

private theorem steps_activate_le (task : TaskImpl) :
    task.activate.1.steps q + (if task.activate.2 then q else 0) ≤ task.steps q + q := by
  unfold TaskImpl.activate
  split
  · simp [TaskImpl.steps]
  · rename_i hstate
    split <;> simp [TaskImpl.steps, hstate, Nat.add_comm]
  · rename_i hstate
    split <;> simp [TaskImpl.steps, hstate, Nat.add_comm]
  · simp [TaskImpl.steps]
  · simp [TaskImpl.steps]

private theorem steps_resetEnter_le (task : TaskImpl) : task.resetEnter.steps q ≤ task.steps q := by
  simp [TaskImpl.steps, TaskImpl.resetEnter]

private theorem steps_resetFinish_le (task : TaskImpl) :
    task.resetFinish.1.steps q + (if task.resetFinish.2 then q else 0) ≤ task.steps q := by
  unfold TaskImpl.resetFinish
  split
  · rename_i hboth
    simp [TaskImpl.steps, hboth.1, Nat.add_comm]
  · simp [TaskImpl.steps]

/-- The counters of an input that is synchronous belong to a threshold. -/
def InputArray.Bunched (a : InputArray) : Prop :=
  ∀ x ∈ a.inputs, x.synchron = true → 0 < x.activationThreshold

private theorem missed_reset_le {x : Input} (h : x.synchron = true → 0 < x.activationThreshold) :
    x.reset.1.missedNotifications + (if x.reset.2 then 1 else 0) ≤ x.missedNotifications := by
  unfold Input.reset
  split
  · rename_i hsynchron
    have hpos := h hsynchron
    split
    · simp only [if_true]
      omega
    · simp
  · simp

private theorem steps_resetInput_le (h : task.inputs.Bunched) :
    (task.resetInput i).1.steps q + (if (task.resetInput i).2 then q else 0) ≤ task.steps q := by
  unfold TaskImpl.resetInput
  cases hx : task.inputs.inputs[i]? with
  | none => simp
  | some x =>
      have hmissed := missed_reset_le (h x (List.mem_of_getElem? hx))
      have hsum := sum_map_set (w := Input.missedNotifications) (y := x.reset.1) hx
      have hle : ((task.inputs.inputs.set i x.reset.1).map Input.missedNotifications).sum +
          (if x.reset.2 then 1 else 0) ≤ (task.inputs.inputs.map Input.missedNotifications).sum := by
        omega
      have hmul := Nat.mul_le_mul_left q hle
      have hq : q * (if x.reset.2 then 1 else 0) = if x.reset.2 then q else 0 := by
        split <;> simp
      rw [Nat.mul_add, hq] at hmul
      show (if task.state = .pending then q else 0) +
        q * ((task.inputs.inputs.set i x.reset.1).map Input.missedNotifications).sum +
          (if x.reset.2 then q else 0) ≤ task.steps q
      unfold TaskImpl.steps
      omega

end Steps

namespace System

variable {τ σ ε γ ν : Type*} [DecidableEq τ] [DecidableEq σ] [DecidableEq ε] [DecidableEq γ]
  [DecidableEq ν] {L : Layout τ σ ε γ} {len : τ → Nat} {t : τ} {e : ε} {c : ν}
  {s s' : System τ σ ε γ ν} {a : SystemAction τ ε ν}

@[simp] theorem perform_notifier : (s.perform L t).notifier = s.notifier := by
  by_cases hr : s.running (L.associatedScheduler t) = true <;> simp [perform, hr, setRunQueue]

@[simp] theorem activate_notifier : (s.activate L t).notifier = s.notifier := by
  by_cases hr : (s.task t).activate.2 = true <;> simp [activate, hr, setTask]

@[simp] theorem resetFinish_notifier : (s.resetFinish L t).notifier = s.notifier := by
  by_cases hr : (s.task t).resetFinish.2 = true <;> simp [resetFinish, hr, setTask]

section Load

variable [Fintype τ] [Fintype σ] [Fintype ε] [Fintype ν]

/-- The steps left when the tasks have these numbers of inputs. -/
def work (L : Layout τ σ ε γ) (len : τ → Nat) (s : System τ σ ε γ ν) : Nat :=
  ∑ t, (s.task t).steps (L.taskSteps len t) +
    ∑ scheduler, ((s.runQueue scheduler).map (L.taskSteps len)).sum +
    ∑ e, (s.executor e).steps L len + ∑ c, (s.notifier c).steps L len

theorem work_setTask (len : τ → Nat) (task : TaskImpl) :
    (s.setTask t task).work L len + (s.task t).steps (L.taskSteps len t) =
      s.work L len + task.steps (L.taskSteps len t) := by
  have hsum := sum_update (fun t (task : TaskImpl) => task.steps (L.taskSteps len t)) s.task t task
  simp only [work, setTask]
  omega

private theorem work_setExecutor (len : τ → Nat) (pc : ExecutePc τ γ) :
    (s.setExecutor e pc).work L len + (s.executor e).steps L len = s.work L len + pc.steps L len := by
  have hsum := sum_update (fun _ (pc : ExecutePc τ γ) => pc.steps L len) s.executor e pc
  simp only [work, setExecutor]
  omega

theorem work_setNotifier (len : τ → Nat) (pc : NotifierPc τ) :
    (s.setNotifier c pc).work L len + (s.notifier c).steps L len = s.work L len + pc.steps L len := by
  have hsum := sum_update (fun _ (pc : NotifierPc τ) => pc.steps L len) s.notifier c pc
  simp only [work, setNotifier]
  omega

private theorem work_setRunQueue (len : τ → Nat) (scheduler : σ) (queue : List τ) :
    (s.setRunQueue scheduler queue).work L len +
        ((s.runQueue scheduler).map (L.taskSteps len)).sum =
      s.work L len + (queue.map (L.taskSteps len)).sum := by
  have hsum := sum_update (fun _ (queue : List τ) => (queue.map (L.taskSteps len)).sum) s.runQueue
    scheduler queue
  simp only [work, setRunQueue]
  omega

private theorem work_perform_le (len : τ → Nat) (s : System τ σ ε γ ν) (t : τ) :
    (s.perform L t).work L len ≤ s.work L len + L.taskSteps len t := by
  by_cases hr : s.running (L.associatedScheduler t) = true
  · have hqueue := work_setRunQueue (L := L) (s := s) len (L.associatedScheduler t)
      (s.runQueue (L.associatedScheduler t) ++ [t])
    rw [List.map_append, List.sum_append, List.map_singleton, List.sum_singleton] at hqueue
    rw [perform, if_pos hr]
    omega
  · rw [perform, if_neg hr]
    exact Nat.le_add_right _ _

private theorem work_put_le (len : τ → Nat) (s : System τ σ ε γ ν) (t : τ) (r : TaskImpl × Bool) :
    (if r.2 then (s.setTask t r.1).perform L t else s.setTask t r.1).work L len +
        (s.task t).steps (L.taskSteps len t) ≤
      s.work L len + (r.1.steps (L.taskSteps len t) + if r.2 then L.taskSteps len t else 0) := by
  have htask := work_setTask (L := L) (s := s) (t := t) len r.1
  cases r.2 with
  | false =>
      simp only [Bool.false_eq_true, if_false]
      omega
  | true =>
      have hperform := work_perform_le (L := L) len (s.setTask t r.1) t
      simp only [if_true]
      omega

private theorem work_activate_le (len : τ → Nat) (s : System τ σ ε γ ν) (t : τ) :
    (s.activate L t).work L len ≤ s.work L len + L.taskSteps len t := by
  have hput := work_put_le (L := L) len s t (s.task t).activate
  have hactivate := steps_activate_le (q := L.taskSteps len t) (s.task t)
  simp only [activate]
  omega

private theorem work_resetFinish_le (len : τ → Nat) (s : System τ σ ε γ ν) (t : τ) :
    (s.resetFinish L t).work L len ≤ s.work L len := by
  have hput := work_put_le (L := L) len s t (s.task t).resetFinish
  have hfinish := steps_resetFinish_le (q := L.taskSteps len t) (s.task t)
  simp only [resetFinish]
  omega

/-- The steps that notify no input. -/
def InternalStep (L : Layout τ σ ε γ) (s : System τ σ ε γ ν) (a : SystemAction τ ε ν)
    (s' : System τ σ ε γ ν) : Prop :=
  Step L s a s' ∧ ∀ v t i, a ≠ .notify v t i

/-- The inputs have these numbers, and none of them is synchronous without a threshold. -/
structure Sized (len : τ → Nat) (s : System τ σ ε γ ν) : Prop where
  length : ∀ t, (s.task t).inputs.inputs.length = len t
  bunched : ∀ t, (s.task t).inputs.Bunched

private theorem work_setExecutor_lt {r : System τ σ ε γ ν} {pc : ExecutePc τ γ} {m k : Nat}
    (hr : r.work L len + m ≤ s.work L len + k) (hexecutor : r.executor = s.executor)
    (hpc : pc.steps L len + k < (s.executor e).steps L len + m) :
    (r.setExecutor e pc).work L len < s.work L len := by
  have hload := work_setExecutor (L := L) (s := r) (e := e) len pc
  rw [hexecutor] at hload
  omega

theorem work_lt (h : s.Sized len) (hs : InternalStep L s a s') : s'.work L len < s.work L len := by
  rcases hs with ⟨hs, hinternal⟩
  cases step_acts hs with
  | notify => exact absurd rfl (hinternal _ _ _)
  | @check c t i x hc hx =>
      split
      · have hload := work_setNotifier (L := L) (s := s) (c := c) len (.activating t)
        simp only [hc, NotifierPc.steps] at hload
        omega
      · have hload := work_setNotifier (L := L) (s := s) (c := c) len .idle
        simp only [hc, NotifierPc.steps] at hload
        omega
  | @activate c t hc =>
      have hload := work_setNotifier (L := L) (s := s.activate L t) (c := c) len .idle
      have hactivate := work_activate_le (L := L) len s t
      simp only [activate_notifier, hc, NotifierPc.steps] at hload
      omega
  | @nextTask e t he ht =>
      have hqueue := work_setRunQueue (L := L) (s := s) len (L.scheduler e)
        ((s.runQueue (L.scheduler e)).erase t)
      have hsum := List.sum_map_erase (L.taskSteps len) ht
      refine work_setExecutor_lt (m := L.taskSteps len t) (k := 0) (by omega) rfl ?_
      simp only [he, ExecutePc.steps, Layout.taskSteps]
      omega
  | @synchronizeStart e t he _ =>
      refine work_setExecutor_lt (m := 0) (k := 0) le_rfl rfl ?_
      simp only [he, ExecutePc.steps]
      omega
  | @executed e t he _ =>
      refine work_setExecutor_lt (m := 0) (k := 0) le_rfl rfl ?_
      rw [he, steps_finalizeExecution]
      simp only [ExecutePc.steps]
      omega
  | @finish e t group he =>
      have htask := work_setTask (L := L) (s := s) (t := t) len { s.task t with state := .finish }
      have hfinish : ({ s.task t with state := .finish } : TaskImpl).steps (L.taskSteps len t) ≤
          (s.task t).steps (L.taskSteps len t) := by simp [TaskImpl.steps]
      refine work_setExecutor_lt (m := 0) (k := 0) (by omega) rfl ?_
      simp only [he, ExecutePc.steps, Layout.groupSteps]
      omega
  | @isExecuted e group t members he =>
      refine work_setExecutor_lt (m := 0) (k := 0) le_rfl rfl ?_
      rw [he]
      split
      · simp only [ExecutePc.steps, List.length_cons]
        omega
      · simp only [ExecutePc.steps, List.length_cons]
        omega
  | @areAllExecuted e group he =>
      refine work_setExecutor_lt (m := 0) (k := 0) le_rfl rfl ?_
      rw [he, steps_resetMembers]
      simp only [ExecutePc.steps, List.length_nil]
      omega
  | @resetEnter e t members he =>
      have htask := work_setTask (L := L) (s := s) (t := t) len (s.task t).resetEnter
      have henter := steps_resetEnter_le (q := L.taskSteps len t) (s.task t)
      have hnext := steps_nextInput_le (i := 0) (q := L.taskSteps len t) (s.task t)
      rw [h.length] at hnext
      refine work_setExecutor_lt (m := 0) (k := 0) (by omega) rfl ?_
      simp only [he, ExecutePc.steps, steps_enter]
      omega
  | @resetInput e t i members he =>
      have htask := work_setTask (L := L) (s := s) (t := t) len ((s.task t).resetInput i).1
      have hinput := steps_resetInput_le (i := i) (q := L.taskSteps len t) (h.bunched t)
      have hnext := steps_nextInput_succ_le (i := i) (q := L.taskSteps len t) (s.task t)
      rw [h.length] at hnext
      refine work_setExecutor_lt (m := if ((s.task t).resetInput i).2 then L.taskSteps len t else 0)
        (k := 0) (by simp only [System.resetInput]; omega) rfl ?_
      have hanswer : (s.resetInput t i).2 = ((s.task t).resetInput i).2 := rfl
      rw [he, hanswer]
      split
      · simp only [ExecutePc.steps, steps_input, steps_activate]
        omega
      · simp only [ExecutePc.steps, steps_input]
        omega
  | @resetActivate e t i members he =>
      have hactivate := work_activate_le (L := L) len s t
      have hnext := steps_nextInput_succ_le (i := i) (q := L.taskSteps len t) (s.task t)
      rw [h.length] at hnext
      refine work_setExecutor_lt (m := 0) (k := L.taskSteps len t) hactivate activate_executor ?_
      simp only [he, ExecutePc.steps, steps_activate]
      omega
  | @resetFinish e t members he =>
      have hfinish := work_resetFinish_le (L := L) len s t
      refine work_setExecutor_lt (m := 0) (k := 0) hfinish resetFinish_executor ?_
      rw [he, steps_resetMembers]
      simp only [ExecutePc.steps, steps_finish]
      omega
  | @leave e he =>
      refine work_setExecutor_lt (m := 0) (k := 0) le_rfl rfl ?_
      simp only [he, ExecutePc.steps]
      omega

end Load

section Invariants

variable {inputs : τ → InputArray}

@[simp] theorem perform_task : (s.perform L t).task = s.task := by
  by_cases hr : s.running (L.associatedScheduler t) = true <;> simp [perform, hr, setRunQueue]

private theorem activate_task :
    (s.activate L t).task = Function.update s.task t (s.task t).activate.1 := by
  by_cases hr : (s.task t).activate.2 = true <;> simp [activate, hr, setTask]

private theorem resetFinish_task :
    (s.resetFinish L t).task = Function.update s.task t (s.task t).resetFinish.1 := by
  by_cases hr : (s.task t).resetFinish.2 = true <;> simp [resetFinish, hr, setTask]

/-- The inputs are configured as they were at the start. -/
def Configured (inputs : τ → InputArray) (s : System τ σ ε γ ν) : Prop :=
  ∀ t, (inputs t).SameConfiguration (s.task t).inputs

private theorem Configured.update (h : s.Configured inputs) (task : TaskImpl)
    (ht : (inputs t).SameConfiguration task.inputs) (hs : s'.task = Function.update s.task t task) :
    s'.Configured inputs := by
  intro u
  rw [hs]
  by_cases hu : u = t
  · subst u
    rwa [Function.update_self]
  · rw [Function.update_of_ne hu]
    exact h u

private theorem configured_resetInput {b : InputArray} {task : TaskImpl}
    (h : b.SameConfiguration task.inputs)
    (i : Nat) : b.SameConfiguration (task.resetInput i).1.inputs := by
  unfold TaskImpl.resetInput
  split
  · rename_i x hx
    exact h.set hx (Input.configuration_reset x)
  · exact h

private theorem inputs_resetFinish (task : TaskImpl) : task.resetFinish.1.inputs = task.inputs := by
  unfold TaskImpl.resetFinish
  split <;> rfl

private theorem Configured.step (h : s.Configured inputs) (hs : Step L s a s') :
    s'.Configured inputs := by
  cases step_acts hs with
  | @notify c t i x _ hx => exact h.update _ ((h t).set hx (Input.configuration_notify x)) rfl
  | check | nextTask | synchronizeStart | executed | isExecuted | areAllExecuted | leave => exact h
  | @activate c t _ => exact h.update _ ((inputs_activate (s.task t)).symm ▸ h t) activate_task
  | @finish e t _ _ => exact h.update { s.task t with state := .finish } (h t) rfl
  | @resetEnter e t _ _ => exact h.update (s.task t).resetEnter (h t) rfl
  | @resetInput e t i _ _ => exact h.update _ (configured_resetInput (h t) i) rfl
  | @resetActivate e t _ _ _ => exact h.update _ ((inputs_activate (s.task t)).symm ▸ h t) activate_task
  | @resetFinish e t _ _ =>
      exact h.update _ ((inputs_resetFinish (s.task t)).symm ▸ h t) resetFinish_task

theorem Configured.length (h : s.Configured inputs) (t : τ) :
    (s.task t).inputs.inputs.length = (inputs t).inputs.length := by
  have hlength := congrArg List.length (h t).configuration
  rwa [List.length_map, List.length_map] at hlength

theorem Configured.sized (h : s.Configured inputs) (hinputs : ∀ t, (inputs t).Bunched) :
    s.Sized fun t => (inputs t).inputs.length := by
  refine ⟨h.length, fun t x hx => ?_⟩
  rcases List.getElem?_of_mem hx with ⟨i, hi⟩
  rcases (h t).symm.getElem? hi with ⟨y, hy, hyx⟩
  have hbunched := hinputs t y (List.mem_of_getElem? hy)
  simp only [Input.configuration, Prod.mk.injEq] at hyx
  rwa [hyx.2.1, hyx.2.2] at hbunched

/-- The owner of a mutex is in its section. -/
def Owned (L : Layout τ σ ε γ) (s : System τ σ ε γ ν) : Prop :=
  ∀ scheduler e, s.synchronizationMutex scheduler = some e →
    L.scheduler e = scheduler ∧ (s.executor e).holdsMutex = true

private theorem Owned.setExecutor {r : System τ σ ε γ ν} {pc : ExecutePc τ γ} (h : s.Owned L)
    (hexecutor : r.executor = s.executor) (hmutex : r.synchronizationMutex = s.synchronizationMutex)
    (hpc : (s.executor e).holdsMutex = true → pc.holdsMutex = true) : (r.setExecutor e pc).Owned L := by
  intro scheduler f hf
  have hold := h scheduler f (by simpa [System.setExecutor, hmutex] using hf)
  refine ⟨hold.1, ?_⟩
  by_cases hfe : f = e
  · subst f
    simpa [System.setExecutor] using hpc hold.2
  · simpa [System.setExecutor, hfe, hexecutor] using hold.2

private theorem holdsMutex_resetMembers (members : List τ) :
    (ExecutePc.resetMembers members : ExecutePc τ γ).holdsMutex = true := by
  cases members <;> rfl

private theorem holdsMutex_finalizeExecution : (L.finalizeExecution t).holdsMutex = true := by
  unfold Layout.finalizeExecution
  split <;> rfl

private theorem Owned.step (h : s.Owned L) (hs : Step L s a s') : s'.Owned L := by
  cases step_acts hs with
  | notify | check => exact h
  | activate =>
      intro scheduler e he
      simpa [setNotifier] using h scheduler e (by simpa [setNotifier] using he)
  | nextTask he | synchronizeStart he =>
      exact h.setExecutor rfl rfl (by simp [he, ExecutePc.holdsMutex])
  | @executed e t he hfree =>
      intro scheduler f hf
      by_cases hscheduler : scheduler = L.scheduler e
      · subst scheduler
        obtain rfl : e = f := by simpa [System.setExecutor, setMutex] using hf
        exact ⟨rfl, by simp [System.setExecutor, holdsMutex_finalizeExecution]⟩
      · have hold := h scheduler f (by simpa [System.setExecutor, setMutex, hscheduler] using hf)
        have hfe : f ≠ e := fun heq => hscheduler (heq ▸ hold.1.symm)
        exact ⟨hold.1, by simpa [System.setExecutor, setMutex, hfe] using hold.2⟩
  | finish | isExecuted => exact h.setExecutor rfl rfl fun _ => by first | rfl | (split <;> rfl)
  | areAllExecuted => exact h.setExecutor rfl rfl fun _ => holdsMutex_resetMembers _
  | resetEnter | resetInput => exact h.setExecutor rfl rfl fun _ => rfl
  | resetActivate => exact h.setExecutor activate_executor activate_mutex fun _ => rfl
  | resetFinish =>
      exact h.setExecutor resetFinish_executor resetFinish_mutex fun _ => holdsMutex_resetMembers _
  | @leave e he =>
      intro scheduler f hf
      by_cases hscheduler : scheduler = L.scheduler e
      · simp [System.setExecutor, setMutex, hscheduler] at hf
      · have hold := h scheduler f (by simpa [System.setExecutor, setMutex, hscheduler] using hf)
        have hfe : f ≠ e := fun heq => hscheduler (heq ▸ hold.1.symm)
        exact ⟨hold.1, by simpa [System.setExecutor, setMutex, hfe] using hold.2⟩

/-- What holds of all threads in every run. -/
structure Orderly (L : Layout τ σ ε γ) (inputs : τ → InputArray) (s : System τ σ ε γ ν) : Prop where
  configured : s.Configured inputs
  guarded : s.Guarded L
  owned : s.Owned L
  counted : ∀ c t i, s.notifier c = .counted t i → i < (inputs t).inputs.length

theorem Orderly.step (h : s.Orderly L inputs) (hs : Step L s a s') : s'.Orderly L inputs := by
  refine ⟨h.configured.step hs, guarded_step h.guarded hs, h.owned.step hs, fun d u j hd => ?_⟩
  cases step_acts hs with
  | @notify c t i x hc hx =>
      by_cases hdc : d = c
      · subst d
        simp only [setNotifier, Function.update_self] at hd
        split at hd
        · obtain ⟨rfl, rfl⟩ : t = u ∧ i = j := by simpa using hd
          rw [← h.configured.length]
          exact (List.getElem?_eq_some_iff.mp hx).1
        · simp at hd
      · exact h.counted d u j (by simpa [setNotifier, setTask, hdc] using hd)
  | @check c t i x hc hx =>
      by_cases hdc : d = c
      · subst d
        simp only [setNotifier, Function.update_self] at hd
        split at hd <;> simp at hd
      · exact h.counted d u j (by simpa [setNotifier, hdc] using hd)
  | @activate c t hc =>
      by_cases hdc : d = c
      · simp [setNotifier, hdc] at hd
      · exact h.counted d u j (by simpa [setNotifier, hdc] using hd)
  | nextTask | synchronizeStart | executed | finish | isExecuted | areAllExecuted | resetEnter
  | resetInput | leave => exact h.counted d u j hd
  | resetActivate => exact h.counted d u j (by simpa [System.setExecutor] using hd)
  | resetFinish => exact h.counted d u j (by simpa [System.setExecutor] using hd)

/-- A thread that can go on nowhere in `notifyInput` is outside of it. -/
theorem Orderly.notifier_idle (h : s.Orderly L inputs) (hcheck : s.step L (.check c) = none)
    (hactivate : s.step L (.activate c) = none) : s.notifier c = .idle := by
  cases hc : s.notifier c with
  | idle => rfl
  | activating t => simp [System.step, hc] at hactivate
  | counted t i =>
      have hlt : i < (s.task t).inputs.inputs.length := by
        rw [h.configured.length]
        exact h.counted c t i hc
      simp [System.step, hc, hlt] at hcheck

/-- When no executor can go on with a task, they have none: one that waits for a mutex waits for
another one. -/
theorem Orderly.executor_idle (h : s.Orderly L inputs)
    (hstuck : ∀ a : SystemAction τ ε ν, a.executor ≠ none → (∀ e t, a ≠ .nextTask e t) →
      s.step L a = none) (e : ε) :
    s.executor e = .idle := by
  have houtside : ∀ e, (s.executor e).holdsMutex = false := by
    intro e
    cases he : s.executor e with
    | idle | fetched | executing => rfl
    | finishing t group =>
        simpa [System.step, he] using hstuck (.finish e) (by simp [SystemAction.executor]) (by simp)
    | checking group members =>
        have hnone := hstuck (.isExecuted e) (by simp [SystemAction.executor]) (by simp)
        cases members <;> simp [System.step, he] at hnone
    | resetting t pc members =>
        have hnone := hstuck (.reset e) (by simp [SystemAction.executor]) (by simp)
        cases pc <;> simp [System.step, he] at hnone
    | leaving =>
        simpa [System.step, he] using hstuck (.leave e) (by simp [SystemAction.executor]) (by simp)
  have hfree : ∀ scheduler, s.synchronizationMutex scheduler = none := by
    intro scheduler
    cases howner : s.synchronizationMutex scheduler with
    | none => rfl
    | some e => simpa [houtside e] using (h.owned scheduler e howner).2
  have hout := houtside e
  cases he : s.executor e with
  | idle => rfl
  | fetched t =>
      simpa [System.step, he, hfree] using hstuck (.synchronizeStart e)
        (by simp [SystemAction.executor]) (by simp)
  | executing t =>
      simpa [System.step, he, hfree] using hstuck (.executed e t) (by simp [SystemAction.executor])
        (by simp)
  | finishing | checking | resetting | leaving => simp [he, ExecutePc.holdsMutex] at hout

/-- When no step is left, all threads are idle. -/
theorem Orderly.atRest (h : s.Orderly L inputs) (hrest : AtRest (InternalStep L) s) :
    (∀ e, s.executor e = .idle) ∧ (∀ c, s.notifier c = .idle) ∧
      (∀ e, s.runQueue (L.scheduler e) = []) := by
  have hstuck : ∀ a : SystemAction τ ε ν, (∀ v t i, a ≠ .notify v t i) → s.step L a = none := by
    intro a ha
    refine Option.eq_none_iff_forall_ne_some.mpr fun s' hs => ?_
    exact hrest a s' ⟨hs, ha⟩
  have hidle : ∀ e, s.executor e = .idle := by
    intro e
    apply h.executor_idle
    intro a ha _
    apply hstuck
    rintro v t i rfl
    exact ha rfl
  refine ⟨hidle, fun c => h.notifier_idle (hstuck _ (by simp)) (hstuck _ (by simp)), fun e => ?_⟩
  cases hq : s.runQueue (L.scheduler e) with
  | nil => rfl
  | cons t rest => simpa [System.step, hidle, hq] using hstuck (.nextTask e t) (by simp)

/-- No thread has begun to work. -/
structure Still (inputs : τ → InputArray) (s : System τ σ ε γ ν) : Prop where
  executor : ∀ e, s.executor e = .idle
  notifier : ∀ c, s.notifier c = .idle
  mutex : ∀ scheduler, s.synchronizationMutex scheduler = none
  configured : s.Configured inputs

private theorem Still.reset (h : s.Still inputs) (t : τ) : (s.reset L t).Still inputs := by
  have hactivate : ∀ r : System τ σ ε γ ν, r.Still inputs → (r.activate L t).Still inputs := fun r hr =>
    ⟨by simpa using hr.executor, by simpa using hr.notifier, by simpa using hr.mutex,
      hr.configured.update _ ((inputs_activate (r.task t)).symm ▸ hr.configured t) activate_task⟩
  have hfinish : ∀ r : System τ σ ε γ ν, r.Still inputs → (r.resetFinish L t).Still inputs :=
      fun r hr =>
    ⟨by simpa using hr.executor, by simpa using hr.notifier, by simpa using hr.mutex,
      hr.configured.update _ ((inputs_resetFinish (r.task t)).symm ▸ hr.configured t) resetFinish_task⟩
  apply hfinish
  apply List.foldlRecOn (motive := fun r : System τ σ ε γ ν => r.Still inputs)
  · exact ⟨h.executor, h.notifier, h.mutex,
      h.configured.update (s.task t).resetEnter (h.configured t) rfl⟩
  · intro r hr i _
    have hinput : (r.resetInput t i).1.Still inputs :=
      ⟨hr.executor, hr.notifier, hr.mutex,
        hr.configured.update _ (configured_resetInput (hr.configured t) i) rfl⟩
    by_cases hact : (r.resetInput t i).2 = true
    · simp only [hact, if_true]
      exact hactivate _ hinput
    · simp only [hact]
      exact hinput

theorem started_still (schedulers : List σ) :
    (started L inputs schedulers : System τ σ ε γ ν).Still inputs := by
  apply List.foldlRecOn (motive := fun r : System τ σ ε γ ν => r.Still inputs)
  · exact ⟨fun _ => rfl, fun _ => rfl, fun _ => rfl, fun t => .refl _⟩
  · intro r hr scheduler _
    apply List.foldlRecOn (motive := fun r : System τ σ ε γ ν => r.Still inputs)
    · exact ⟨hr.executor, hr.notifier, hr.mutex, hr.configured⟩
    · exact fun q hq t _ => hq.reset t

theorem Still.orderly (h : s.Still inputs) : s.Orderly L inputs :=
  ⟨h.configured, fun e he => by simp [h.executor, ExecutePc.holdsMutex] at he,
    fun scheduler e he => by simp [h.mutex] at he, fun c t i hc => by simp [h.notifier] at hc⟩

end Invariants

section Runs

variable [Fintype τ] [Fintype σ] [Fintype ε] [Fintype ν] {inputs : τ → InputArray} {schedulers : List σ}
  {acts later : List (SystemAction τ ε ν)}

/-- An upper bound of the steps that are left without further notifications. -/
def load (L : Layout τ σ ε γ) (s : System τ σ ε γ ν) : Nat :=
  s.work L fun t => (s.task t).inputs.inputs.length

/-- Whatever the tasks have been notified of comes to an end: without further notifications the
steps left are bounded by the load and lead to rest. At rest all threads are idle, no scheduler with
an executor has a task in its run queue, and its tasks outside of groups wait and are not activated.
-/
theorem run_comesToRest (hbunched : ∀ t, (inputs t).Bunched) (hnodup : schedulers.Nodup)
    (hrun : Run (Step L) (started L inputs schedulers) acts s)
    (hlater : Run (InternalStep L) s later s') :
    later.length + s'.load L ≤ s.load L ∧
      (∃ more u, Run (InternalStep L) s' more u ∧ AtRest (InternalStep L) u) ∧
      (AtRest (InternalStep L) s' → (∀ e, s'.executor e = .idle) ∧ (∀ c, s'.notifier c = .idle) ∧
        (∀ e, s'.runQueue (L.scheduler e) = []) ∧
        ∀ e t F, L.Ungrouped t → L.associatedScheduler t = L.scheduler e →
          (L.associatedTasks (L.scheduler e)).Nodup → L.scheduler e ∈ schedulers →
          InputArray.DecidedBy F (inputs t) →
          (s'.task t).state = .wait ∧ (s'.task t).inputs.isActivated = false) := by
  have horderly : s.Orderly L inputs :=
    hrun.invariant (started_still schedulers).orderly fun _ _ _ h hs => h.step hs
  have hlowers : Lowers (InternalStep L) (fun s : System τ σ ε γ ν => s.Orderly L inputs)
      fun s => s.work L fun t => (inputs t).inputs.length :=
    ⟨fun h hs => h.step hs.1, fun h hs => work_lt (h.configured.sized hbunched) hs⟩
  have horderly' : s'.Orderly L inputs := hlater.invariant horderly fun _ _ _ h hs => h.step hs.1
  have hload : ∀ r : System τ σ ε γ ν, r.Orderly L inputs →
      r.load L = r.work L fun t => (inputs t).inputs.length := by
    intro r hr
    have hlength : (fun t => (r.task t).inputs.inputs.length) = fun t => (inputs t).inputs.length :=
      funext hr.configured.length
    rw [load, hlength]
  refine ⟨?_, hlowers.exists_atRest horderly', fun hrest => ?_⟩
  · rw [hload s horderly, hload s' horderly']
    exact hlowers.length_add_le horderly hlater
  · rcases horderly'.atRest hrest with ⟨hidle, hnotifier, hqueue⟩
    refine ⟨hidle, hnotifier, hqueue, fun e t F hL hscheduler hassociated hstart hdecided => ?_⟩
    rw [← hscheduler] at hassociated hstart
    have hrun' := hrun.append (hlater.mono fun _ _ _ hs => hs.1)
    have hserved : s'.Served L t F (inputs t) :=
      hrun'.invariant (started_served hassociated hstart hnodup hdecided) fun _ _ _ h hs =>
        h.step hL hdecided hs
    have hwait : (s'.task t).state = .wait := by
      refine hserved.turns.waits ?_ fun e => by simp [view, hidle, ExecutePc.stage]
      simp [view, hscheduler, hqueue]
    have hnotice : ∀ c, (s'.notifier c).notice t = none := fun c => by rw [hnotifier c]; rfl
    exact ⟨hwait, hserved.not_activated hdecided hwait hnotice⟩

end Runs

/-- A final input is notified once, and then the threads are left alone. -/
theorem run_comesToRest_single :
    ∃ (s s' : System Unit Unit Unit Unit Unit) (later : List (SystemAction Unit Unit Unit)),
      Run (Step .single) (started .single
        (fun _ => ⟨[Input.init.configure 2 false, Input.init.configure 1 true], none⟩) [()])
          [.notify () () 1] s ∧
        Run (InternalStep .single) s later s' ∧ later.length ≤ 14 ∧ (s'.task ()).state = .wait ∧
        (s'.task ()).inputs.isActivated = false := by
  have hrun : ∃ s, Run (Step .single) (started .single (fun _ => ⟨[Input.init.configure 2 false,
      Input.init.configure 1 true], none⟩) [()] : System Unit Unit Unit Unit Unit)
      [.notify () () 1] s ∧ s.load .single = 14 := ⟨_, run_foldlM.mpr rfl, rfl⟩
  rcases hrun with ⟨s, hrun, hload⟩
  have hbunched : ∀ t : Unit, InputArray.Bunched
      ⟨[Input.init.configure 2 false, Input.init.configure 1 true], none⟩ := fun _ => by
    simp [InputArray.Bunched, Input.configure, Input.init]
  rcases (run_comesToRest hbunched (List.nodup_singleton ()) hrun .start).2.1 with ⟨later, s',
    hlater, hrest⟩
  rcases run_comesToRest hbunched (List.nodup_singleton ()) hrun hlater with ⟨hlength, _, hend⟩
  have htask := (hend hrest).2.2.2 () () _ ⟨rfl, by simp [Layout.single]⟩ rfl (by simp [Layout.single])
    List.mem_cons_self (InputArray.decidedBy_byInputs rfl ⟨_, List.mem_cons_self, rfl, rfl⟩)
  exact ⟨s, s', later, hrun, hlater, hload ▸ le_of_add_le_left hlength, htask⟩

end System

end TaskingFramework
