import TaskingFramework.Foundation.Simulation
import TaskingFramework.Task.Executions
import TaskingFramework.UnitTest.SchedulerUnitTest

/-!
# Unit tests and interleavings

What a system does on `SchedulerUnitTest` is one of the interleavings of executors and notifying
threads: one executor fetches, executes and resets the tasks, and one thread makes the
notifications, each of them from start to end.
-/

set_option linter.unusedSectionVars false

namespace TaskingFramework

open Foundation

/-- The task whose execution ends with the action. -/
def SystemAction.executedTask {τ ε ν : Type} : SystemAction τ ε ν → Option τ
  | .executed _ t => some t
  | .notify _ _ _ | .check _ | .activate _ | .nextTask _ _ | .synchronizeStart _ | .finish _
  | .isExecuted _
  | .reset _ | .leave _ => none

/-- A scheduler with one executor and one notifying thread at work. -/
structure Stand (τ γ : Type) where
  scheduler : Scheduler τ
  executor : ExecutePc τ γ
  held : Bool                -- the executor is inside `synchronizationMutex`
  notifier : NotifierPc τ

/-- Nobody is at work. -/
def Stand.resting {τ γ : Type} (s : Scheduler τ) : Stand τ γ := ⟨s, .idle, false, .idle⟩

section Shows

variable {τ σ ε γ ν : Type} [DecidableEq τ] [DecidableEq σ] [DecidableEq ε] [DecidableEq γ]
  [DecidableEq ν]

/-- The system is in the state of the scheduler, and all other threads are idle. -/
structure Shows (scheduler : σ) (e : ε) (v : ν) (a : Stand τ γ) (c : System τ σ ε γ ν) : Prop where
  task : c.task = a.scheduler.task
  running : c.running scheduler = a.scheduler.running
  runQueue : c.runQueue scheduler = a.scheduler.runQueue
  executor : c.executor = Function.update (fun _ => .idle) e a.executor
  mutex : c.synchronizationMutex scheduler = if a.held then some e else none
  notifier : c.notifier = Function.update (fun _ => .idle) v a.notifier

variable {L : Layout τ σ ε γ} {scheduler : σ} {e : ε} {v : ν} {a : Stand τ γ} {c : System τ σ ε γ ν}
  {t : τ}

private theorem Shows.executor_self (h : Shows scheduler e v a c) :
    c.executor e = a.executor := by simp [h.executor]

private theorem Shows.notifier_self (h : Shows scheduler e v a c) :
    c.notifier v = a.notifier := by simp [h.notifier]

theorem Shows.setTask (h : Shows scheduler e v a c) (task : TaskImpl) :
    Shows scheduler e v { a with scheduler := a.scheduler.setTask t task } (c.setTask t task) := by
  refine ⟨?_, h.running, h.runQueue, h.executor, h.mutex, h.notifier⟩
  simp only [System.setTask, Scheduler.setTask, h.task]

private theorem Shows.setExecutor (h : Shows scheduler e v a c) (pc : ExecutePc τ γ) :
    Shows scheduler e v { a with executor := pc } (c.setExecutor e pc) := by
  refine ⟨h.task, h.running, h.runQueue, ?_, h.mutex, h.notifier⟩
  simp only [System.setExecutor, h.executor, Function.update_idem]

private theorem Shows.setNotifier (h : Shows scheduler e v a c) (pc : NotifierPc τ) :
    Shows scheduler e v { a with notifier := pc } (c.setNotifier v pc) := by
  refine ⟨h.task, h.running, h.runQueue, h.executor, h.mutex, ?_⟩
  simp only [System.setNotifier, h.notifier, Function.update_idem]

private theorem Shows.setMutex (h : Shows scheduler e v a c) (held : Bool) :
    Shows scheduler e v { a with held := held }
        (c.setMutex scheduler (if held then some e else none)) :=
  ⟨h.task, h.running, h.runQueue, h.executor, Function.update_self _ _ _, h.notifier⟩

private theorem Shows.setRunQueue (h : Shows scheduler e v a c) (queue : List τ) :
    Shows scheduler e v { a with scheduler := { a.scheduler with runQueue := queue } }
      (c.setRunQueue scheduler queue) :=
  ⟨h.task, h.running, Function.update_self _ _ _, h.executor, h.mutex, h.notifier⟩

private theorem Shows.perform (hL : L.associatedScheduler t = scheduler) (h : Shows scheduler e v a c) :
    Shows scheduler e v { a with scheduler := a.scheduler.perform t } (c.perform L t) := by
  rw [System.perform, Scheduler.perform, hL, h.running, h.runQueue]
  by_cases hrunning : a.scheduler.running = true
  · rw [if_pos hrunning, if_pos hrunning]
    exact h.setRunQueue _
  · rw [if_neg hrunning, if_neg hrunning]
    exact h

theorem Shows.activate (hL : L.associatedScheduler t = scheduler) (h : Shows scheduler e v a c) :
    Shows scheduler e v { a with scheduler := a.scheduler.activate t } (c.activate L t) := by
  rw [System.activate, Scheduler.activate, h.task]
  by_cases hperform : (a.scheduler.task t).activate.2 = true
  · simp only [hperform, if_true]
    exact (h.setTask _).perform hL
  · simp only [hperform]
    exact h.setTask _

theorem Shows.resetFinish (hL : L.associatedScheduler t = scheduler) (h : Shows scheduler e v a c) :
    Shows scheduler e v { a with scheduler :=
      let r := (a.scheduler.task t).resetFinish
      if r.2 then (a.scheduler.setTask t r.1).perform t else a.scheduler.setTask t r.1 }
      (c.resetFinish L t) := by
  rw [System.resetFinish, h.task]
  by_cases hperform : (a.scheduler.task t).resetFinish.2 = true
  · simp only [hperform, if_true]
    exact (h.setTask _).perform hL
  · simp only [hperform]
    exact h.setTask _

end Shows

section Takes

variable {τ σ ε γ ν : Type} [DecidableEq τ] [DecidableEq σ] [DecidableEq ε] [DecidableEq γ]
  [DecidableEq ν]

/-- From a state of the scheduler the system comes to another one, and the tasks `l` are executed on
the way. -/
abbrev Takes (L : Layout τ σ ε γ) (scheduler : σ) (e : ε) (v : ν) (a : Stand τ γ) (l : List τ)
    (b : Stand τ γ) : Prop :=
  Leads (System.Step L) SystemAction.executedTask (Shows scheduler e v) a l b

variable {L : Layout τ σ ε γ} {scheduler : σ} {e : ε} {v : ν} {s : Scheduler τ} {pc : ExecutePc τ γ}
  {held : Bool} {np : NotifierPc τ} {t : τ} {i : Nat} {x : Input} {g : γ} {members : List τ}

private theorem takes_notify (hx : (s.task t).inputs.inputs[i]? = some x) :
    Takes L scheduler e v ⟨s, pc, held, .idle⟩ []
      ⟨s.setTask t ((s.task t).setInput i x.notify.1), pc, held,
          if x.notify.2 then .counted t i else .idle⟩ := by
  refine leads_step (i := .notify v t i) rfl fun c hc => ⟨_, ?_, (hc.setTask _).setNotifier _⟩
  simp [System.Step, System.step, hc.notifier_self, hc.task, hx]

private theorem takes_check (hx : (s.task t).inputs.inputs[i]? = some x) :
    Takes L scheduler e v ⟨s, pc, held, .counted t i⟩ []
      ⟨s, pc, held, if x.isActivated then .activating t else .idle⟩ := by
  refine leads_step (i := .check v) rfl fun c hc => ⟨_, ?_, hc.setNotifier _⟩
  simp [System.Step, System.step, hc.notifier_self, hc.task, hx]

private theorem takes_activate (hL : L.associatedScheduler t = scheduler) :
    Takes L scheduler e v ⟨s, pc, held, .activating t⟩ [] ⟨s.activate t, pc, held, .idle⟩ := by
  refine leads_step (i := .activate v) rfl fun c hc => ⟨_, ?_, (hc.activate hL).setNotifier _⟩
  simp [System.Step, System.step, hc.notifier_self]

private theorem takes_notifyInput (hL : L.associatedScheduler t = scheduler) :
    Takes L scheduler e v ⟨s, pc, held, .idle⟩ [] ⟨s.notifyInput t i, pc, held, .idle⟩ := by
  cases hx : (s.task t).inputs.inputs[i]? with
  | none =>
      simp only [Scheduler.notifyInput, hx]
      exact .refl
  | some x =>
      have hi : i < (s.task t).inputs.inputs.length := (List.getElem?_eq_some_iff.mp hx).1
      have hset : ((s.setTask t ((s.task t).setInput i x.notify.1)).task t).inputs.inputs[i]? =
          some x.notify.1 := by
        simp [Scheduler.setTask, TaskImpl.setInput, InputArray.set, hi]
      have hnotify : Takes L scheduler e v ⟨s, pc, held, .idle⟩ []
          ⟨s.setTask t ((s.task t).setInput i x.notify.1), pc, held,
              if x.notify.2 then .counted t i else .idle⟩ :=
        takes_notify hx
      simp only [Scheduler.notifyInput, hx]
      cases hgoes : x.notify.2 with
      | false =>
          rw [hgoes] at hnotify
          exact hnotify
      | true =>
          rw [hgoes] at hnotify
          have hcheck := hnotify.silent (takes_check hset)
          cases hact : x.notify.1.isActivated with
          | false =>
              rw [hact] at hcheck
              exact hcheck
          | true =>
              rw [hact] at hcheck
              exact hcheck.silent (takes_activate hL)

private theorem takes_nextTask (he : L.scheduler e = scheduler) (ht : t ∈ s.runQueue) :
    Takes L scheduler e v ⟨s, .idle, held, np⟩ []
      ⟨{ s with runQueue := s.runQueue.erase t }, .fetched t, held, np⟩ := by
  refine leads_step (i := .nextTask e t) rfl fun c hc => ⟨_, ?_, (hc.setRunQueue _).setExecutor _⟩
  simp [System.Step, System.step, he, hc.executor_self, hc.runQueue, ht]

private theorem takes_synchronizeStart (he : L.scheduler e = scheduler) :
    Takes L scheduler e v ⟨s, .fetched t, false, np⟩ [] ⟨s, .executing t, false, np⟩ := by
  refine leads_step (i := .synchronizeStart e) rfl fun c hc => ⟨_, ?_, hc.setExecutor _⟩
  simp [System.Step, System.step, he, hc.executor_self, hc.mutex]

private theorem takes_executed (he : L.scheduler e = scheduler) :
    Takes L scheduler e v ⟨s, .executing t, false, np⟩ [t] ⟨s, L.finalizeExecution t, true, np⟩ := by
  refine leads_step (i := .executed e t) rfl fun c hc => ⟨_, ?_, (hc.setMutex true).setExecutor _⟩
  simp [System.Step, System.step, he, hc.executor_self, hc.mutex]

private theorem takes_finish :
    Takes L scheduler e v ⟨s, .finishing t g, held, np⟩ []
      ⟨s.setTask t { s.task t with state := .finish }, .checking g (L.taskList g), held, np⟩ := by
  refine leads_step (i := .finish e) rfl fun c hc => ⟨_, ?_, (hc.setTask _).setExecutor _⟩
  simp [System.Step, System.step, hc.executor_self, hc.task]

private theorem takes_areAllExecuted :
    Takes L scheduler e v ⟨s, .checking g members, held, np⟩ []
      ⟨s, if members.all fun f => (s.task f).isExecuted then .resetMembers
          (L.taskList g) else .leaving, held, np⟩ := by
  induction members with
  | nil =>
      refine leads_step (i := .isExecuted e) rfl fun c hc => ⟨_, ?_, hc.setExecutor _⟩
      simp [System.Step, System.step, hc.executor_self]
  | cons f members ih =>
      have hstep : Takes L scheduler e v ⟨s, .checking g (f :: members), held, np⟩ []
          ⟨s, if (s.task f).isExecuted then .checking g members else .leaving, held, np⟩ := by
        refine leads_step (i := .isExecuted e) rfl fun c hc => ⟨_, ?_, hc.setExecutor _⟩
        simp [System.Step, System.step, hc.executor_self, hc.task]
      cases hf : (s.task f).isExecuted with
      | true =>
          rw [hf] at hstep
          simp only [List.all_cons, hf, Bool.true_and]
          exact hstep.silent ih
      | false =>
          rw [hf] at hstep
          simp only [List.all_cons, hf, Bool.false_and]
          exact hstep

private theorem takes_resetEnter :
    Takes L scheduler e v ⟨s, .resetting t .enter members, held, np⟩ []
      ⟨s.setTask t (s.task t).resetEnter, .resetting t ((s.task t).nextInput 0) members, held, np⟩ := by
  refine leads_step (i := .reset e) rfl fun c hc => ⟨_, ?_, (hc.setTask _).setExecutor _⟩
  simp [System.Step, System.step, hc.executor_self, hc.task]

private theorem takes_resetInput (hL : L.associatedScheduler t = scheduler)
    (hi : i < (s.task t).inputs.inputs.length) :
    Takes L scheduler e v ⟨s, .resetting t ((s.task t).nextInput i) members, held, np⟩ []
      ⟨s.resetInput t i, .resetting t ((s.task t).nextInput (i + 1)) members, held, np⟩ := by
  have hpc : (s.task t).nextInput i = .input i := if_pos hi
  have hlen : (((s.task t).resetInput i).1.inputs.inputs.length) = (s.task t).inputs.inputs.length :=
    TaskImpl.length_resetInput _ _
  have hnext : ∀ task : TaskImpl, task.inputs.inputs.length = (s.task t).inputs.inputs.length →
      task.nextInput (i + 1) = (s.task t).nextInput (i + 1) := by
    intro task h
    rw [TaskImpl.nextInput, TaskImpl.nextInput, h]
  have hinput : Takes L scheduler e v ⟨s, .resetting t ((s.task t).nextInput i) members, held, np⟩ []
      ⟨s.setTask t ((s.task t).resetInput i).1,
        .resetting t (if ((s.task t).resetInput i).2 then .activate i else (s.task t).nextInput
          (i + 1)) members, held,
        np⟩ := by
    refine leads_step (i := .reset e) rfl fun c hc => ⟨_, ?_, (hc.setTask _).setExecutor _⟩
    simp [System.Step, System.step, hc.executor_self, hc.task, hpc, System.resetInput]
  rw [Scheduler.resetInput]
  cases hgoes : ((s.task t).resetInput i).2 with
  | false =>
      rw [hgoes] at hinput
      exact hinput
  | true =>
      rw [hgoes] at hinput
      refine hinput.silent (leads_step (i := .reset e) rfl fun c hc =>
        ⟨_, ?_, (hc.activate hL).setExecutor _⟩)
      have htask : c.task t = ((s.task t).resetInput i).1 := by simp [hc.task, Scheduler.setTask]
      simp [System.Step, System.step, hc.executor_self, htask, hnext _ hlen]

private theorem takes_resetFinish (hL : L.associatedScheduler t = scheduler) :
    Takes L scheduler e v ⟨s, .resetting t .finish members, held, np⟩ []
      ⟨let r := (s.task t).resetFinish
        if r.2 then (s.setTask t r.1).perform t else s.setTask t r.1, .resetMembers members, held,
            np⟩ := by
  refine leads_step (i := .reset e) rfl fun c hc => ⟨_, ?_, (hc.resetFinish hL).setExecutor _⟩
  simp [System.Step, System.step, hc.executor_self]

private theorem takes_leave (he : L.scheduler e = scheduler) :
    Takes L scheduler e v ⟨s, .leaving, true, np⟩ [] ⟨s, .idle, false, np⟩ := by
  refine leads_step (i := .leave e) rfl fun c hc => ⟨_, ?_, (hc.setMutex false).setExecutor _⟩
  simp [System.Step, System.step, he, hc.executor_self]

end Takes

namespace SchedulerUnitTest

variable {τ σ ε γ η π θ ν : Type} [DecidableEq τ] [DecidableEq σ] [DecidableEq ε] [DecidableEq γ]
  [DecidableEq η] [DecidableEq π] [DecidableEq θ] [DecidableEq ν]

/-- The layout has the scheduler of the unit test, with the executor, and the groups. -/
structure LaidOut (L : Layout τ σ ε γ) (scheduler : σ) (e : ε) (s : SchedulerUnitTest τ γ η π θ) :
    Prop where
  associatedScheduler : ∀ t, L.associatedScheduler t = scheduler
  scheduler : L.scheduler e = scheduler
  group : L.group = s.wiring.group
  taskList : L.taskList = s.wiring.taskList

variable {L : Layout τ σ ε γ} {scheduler : σ} {e : ε} {v : ν} {s u w : SchedulerUnitTest τ γ η π θ}
  {pc : ExecutePc τ γ} {held : Bool} {t : τ} {i fuel : Nat} {g : γ} {members : List τ}

theorem LaidOut.congr (h : LaidOut L scheduler e s) (hwiring : u.wiring = s.wiring) :
    LaidOut L scheduler e u :=
  ⟨h.associatedScheduler, h.scheduler, by rw [hwiring]; exact h.group,
    by rw [hwiring]; exact h.taskList⟩

private theorem takes_notifyAll (hL : ∀ t, L.associatedScheduler t = scheduler) {s : Scheduler τ}
    (inputs : List (τ × Nat)) :
    Takes L scheduler e v ⟨s, pc, held, .idle⟩ [] ⟨s.notifyAll inputs, pc, held, .idle⟩ := by
  induction inputs generalizing s with
  | nil => exact .refl
  | cons x inputs ih => exact (takes_notifyInput (hL x.1)).silent ih

/-- What a call leaves alone besides the tasks and the events. -/
structure Beside (s u : SchedulerUnitTest τ γ η π θ) : Prop where
  wiring : u.wiring = s.wiring
  executions : u.executions = s.executions

private theorem Beside.refl : Beside s s := ⟨rfl, rfl⟩

private theorem Beside.trans (h : Beside s u) (h' : Beside u w) : Beside s w :=
  ⟨h'.wiring.trans h.wiring, h'.executions.trans h.executions⟩

private theorem takes_follow (hL : ∀ t, L.associatedScheduler t = scheduler) (events : Events η π θ) :
    Takes L scheduler e v ⟨s.scheduler, pc, held, .idle⟩ []
      ⟨(s.follow events).scheduler, pc, held, .idle⟩ ∧
      Beside s (s.follow events) := by
  have hdelivers : ∀ (l : List (Nat × Effect η θ)) (u : SchedulerUnitTest τ γ η π θ),
      Takes L scheduler e v ⟨u.scheduler, pc, held, .idle⟩ []
          ⟨(l.foldl (fun s entry => s.deliver entry.2) u).scheduler, pc, held, .idle⟩ ∧
        Beside u (l.foldl (fun s entry => s.deliver entry.2) u) := by
    intro l
    induction l with
    | nil => exact fun u => ⟨.refl, .refl⟩
    | cons entry l ih =>
        intro u
        have hone : Takes L scheduler e v ⟨u.scheduler, pc, held, .idle⟩ []
            ⟨(u.deliver entry.2).scheduler, pc, held, .idle⟩ ∧ Beside u (u.deliver entry.2) := by
          cases entry.2 with
          | push | pushTrigger => exact ⟨takes_notifyAll hL _, rfl, rfl⟩
          | handle | wake => exact ⟨.refl, .refl⟩
        obtain ⟨hrest, hbeside⟩ := ih (u.deliver entry.2)
        exact ⟨hone.1.silent hrest, hone.2.trans hbeside⟩
  have hfollow := hdelivers (events.trace.drop s.events.trace.length) { s with events := events }
  exact ⟨hfollow.1, hfollow.2.wiring, hfollow.2.executions⟩

theorem resetInput_scheduler (hret : resetInput fuel t s i = .ok u) :
    u.scheduler = s.scheduler.resetInput t i ∧ Beside s u := by
  unfold resetInput at hret
  cases hchannel : s.wiring.channel t i with
  | none =>
      simp only [hchannel, ok_bind] at hret
      obtain rfl := Except.ok.inj hret
      exact ⟨rfl, rfl, rfl⟩
  | some e =>
      simp only [hchannel] at hret
      obtain ⟨events, _, hret⟩ := bind_eq_ok.mp hret
      obtain rfl := Except.ok.inj hret
      exact ⟨rfl, rfl, rfl⟩

private theorem activate_task (s : Scheduler τ) : (s.activate t).task t = (s.task t).activate.1 := by
  have hperform : ∀ s : Scheduler τ, (s.perform t).task = s.task := by
    intro s
    rw [Scheduler.perform]
    split <;> rfl
  rw [Scheduler.activate]
  split
  · rw [hperform]
    exact Function.update_self _ _ _
  · exact Function.update_self _ _ _

private theorem length_resetInput (s : Scheduler τ) :
    ((s.resetInput t i).task t).inputs.inputs.length = (s.task t).inputs.inputs.length := by
  have hself : (s.setTask t ((s.task t).resetInput i).1).task t = ((s.task t).resetInput i).1 :=
    Function.update_self _ _ _
  rw [← TaskImpl.length_resetInput (s.task t) i, Scheduler.resetInput]
  split
  · rw [activate_task, Scheduler.activate_inputs, hself]
  · rw [hself]

private theorem reset_beside (hret : s.reset fuel t = .ok u) : Beside s u := by
  obtain ⟨w, hloop, hret⟩ := bind_eq_ok.mp hret
  obtain rfl := Except.ok.inj hret
  have hw : Beside s w := by
    refine foldlM_invariant (I := Beside s) hloop ⟨rfl, rfl⟩ fun x i y _ hx hy => ?_
    exact hx.trans (resetInput_scheduler hy).2
  exact ⟨hw.wiring, hw.executions⟩

theorem resets_beside (hret : members.foldlM (reset fuel) s = .ok u) : Beside s u :=
  foldlM_invariant (I := Beside s) hret .refl fun _ _ _ _ hx hy => hx.trans (reset_beside hy)

private theorem finalizeExecution_beside (hret : s.finalizeExecution fuel t = .ok u) : Beside s u := by
  unfold finalizeExecution at hret
  cases hgroup : s.wiring.group t with
  | none =>
      simp only [hgroup] at hret
      exact reset_beside hret
  | some g =>
      simp only [hgroup] at hret
      split at hret
      · have hresets := resets_beside hret
        exact ⟨hresets.wiring, hresets.executions⟩
      · obtain rfl := Except.ok.inj hret
        exact ⟨rfl, rfl⟩

private theorem takes_reset (hL : L.associatedScheduler t = scheduler) (hret : s.reset fuel t = .ok u) :
    Takes L scheduler e v ⟨s.scheduler, .resetting t .enter members, held, .idle⟩ []
      ⟨u.scheduler, .resetMembers members, held, .idle⟩ := by
  let len := (s.scheduler.task t).inputs.inputs.length
  let s₁ : SchedulerUnitTest τ γ η π θ :=
    { s with scheduler := s.scheduler.setTask t (s.scheduler.task t).resetEnter }
  have hlen₁ : (s₁.scheduler.task t).inputs.inputs.length = len := by
    simp [s₁, len, Scheduler.setTask, TaskImpl.resetEnter]
  -- the loop over the inputs, by the number of inputs that are reset
  have hinputs : ∀ m ≤ len, ∀ w, (List.range m).foldlM (resetInput fuel t) s₁ = .ok w →
      Takes L scheduler e v ⟨s₁.scheduler, .resetting t ((s₁.scheduler.task t).nextInput 0) members,
        held, .idle⟩ []
          ⟨w.scheduler, .resetting t ((w.scheduler.task t).nextInput m) members, held, .idle⟩ ∧
        (w.scheduler.task t).inputs.inputs.length = len := by
    intro m
    induction m with
    | zero =>
        intro _ w hw
        obtain rfl : s₁ = w := Except.ok.inj hw
        exact ⟨.refl, hlen₁⟩
    | succ m ih =>
        intro hm w hw
        obtain ⟨x, hx, hlast⟩ := foldlM_range_succ hw
        obtain ⟨hbefore, hlen⟩ := ih (Nat.le_of_succ_le hm) x hx
        obtain ⟨hscheduler, _⟩ := resetInput_scheduler hlast
        have hone : Takes L scheduler e v
            ⟨x.scheduler, .resetting t ((x.scheduler.task t).nextInput m) members, held, .idle⟩ []
            ⟨x.scheduler.resetInput t m, .resetting t
                ((x.scheduler.task t).nextInput (m + 1)) members, held, .idle⟩ :=
          takes_resetInput hL (lt_of_lt_of_eq hm hlen.symm)
        have hlen' : (w.scheduler.task t).inputs.inputs.length = len := by
          rw [hscheduler, length_resetInput, hlen]
        have hnext : (x.scheduler.task t).nextInput (m + 1) =
            (w.scheduler.task t).nextInput (m + 1) := by
          rw [TaskImpl.nextInput, TaskImpl.nextInput, hlen, hlen']
        rw [hnext, ← hscheduler] at hone
        exact ⟨hbefore.silent hone, hlen'⟩
  obtain ⟨w, hloop, hret⟩ := bind_eq_ok.mp hret
  obtain rfl := Except.ok.inj hret
  obtain ⟨htakes, hlen⟩ := hinputs len le_rfl w hloop
  have hfinish : (w.scheduler.task t).nextInput len = .finish := if_neg (by omega)
  have hfirst : (s₁.scheduler.task t).nextInput 0 = (s.scheduler.task t).nextInput 0 := by
    rw [TaskImpl.nextInput, TaskImpl.nextInput, hlen₁]
  rw [hfinish, hfirst] at htakes
  exact (takes_resetEnter.silent htakes).silent (takes_resetFinish hL)

private theorem takes_resetMembers (hL : ∀ t, L.associatedScheduler t = scheduler)
    (hret : members.foldlM (reset fuel) s = .ok u) :
    Takes L scheduler e v ⟨s.scheduler, .resetMembers members, held, .idle⟩ []
      ⟨u.scheduler, .leaving, held, .idle⟩ := by
  induction members generalizing s with
  | nil =>
      obtain rfl : s = u := Except.ok.inj hret
      exact .refl
  | cons t members ih =>
      rw [List.foldlM_cons] at hret
      obtain ⟨x, hx, hret⟩ := bind_eq_ok.mp hret
      exact (takes_reset (hL t) hx).silent (ih hret)

private theorem takes_finalizeExecution (hlaid : LaidOut L scheduler e s)
    (hret : s.finalizeExecution fuel t = .ok u) :
    Takes L scheduler e v ⟨s.scheduler, L.finalizeExecution t, held, .idle⟩ []
      ⟨u.scheduler, .leaving, held, .idle⟩ := by
  unfold finalizeExecution at hret
  unfold Layout.finalizeExecution
  rw [hlaid.group]
  cases hgroup : s.wiring.group t with
  | none =>
      simp only [hgroup] at hret
      exact takes_reset (hlaid.associatedScheduler t) hret
  | some g =>
      simp only [hgroup] at hret
      have hfinish : Takes L scheduler e v ⟨s.scheduler, .finishing t g, held, .idle⟩ [] _ :=
        takes_finish.silent takes_areAllExecuted
      rw [hlaid.taskList] at hfinish
      split at hret
      · rename_i hall
        rw [if_pos hall] at hfinish
        exact hfinish.silent (takes_resetMembers hlaid.associatedScheduler hret)
      · rename_i hall
        obtain rfl := Except.ok.inj hret
        rw [if_neg hall] at hfinish
        exact hfinish

private theorem takes_execute {notified : List (τ × Nat)} (hlaid : LaidOut L scheduler e s)
    (ht : t ∈ s.scheduler.runQueue) (hret : s.execute fuel t notified = .ok u) :
    Takes L scheduler e v (.resting s.scheduler) [t] (.resting u.scheduler) ∧ u.wiring = s.wiring ∧
      u.executions = s.executions ++ [t] := by
  have hlaid' : LaidOut L scheduler e { s with
      scheduler := { s.scheduler with runQueue := s.scheduler.runQueue.erase t }.notifyAll notified
      executions := s.executions ++ [t] } := hlaid.congr rfl
  have hfinish : Takes L scheduler e v ⟨_, L.finalizeExecution t, true, .idle⟩ []
      ⟨u.scheduler, .leaving, true, .idle⟩ :=
    takes_finalizeExecution hlaid' hret
  have hbeside := finalizeExecution_beside hret
  have hfetch : Takes L scheduler e v (.resting s.scheduler) [] ⟨_, .executing t, false, .idle⟩ :=
    (takes_nextTask hlaid.scheduler ht).silent (takes_synchronizeStart hlaid.scheduler)
  have hbody := hfetch.silent (takes_notifyAll hlaid.associatedScheduler notified)
  have hexecuted := hbody.silent (takes_executed hlaid.scheduler)
  exact ⟨(hexecuted.silently hfinish).silently (takes_leave hlaid.scheduler), hbeside.wiring,
    hbeside.executions⟩

private theorem takes_executes (hlaid : LaidOut L scheduler e s) (hexecute : Executes s u) :
    ∃ l, Takes L scheduler e v (.resting s.scheduler) l (.resting u.scheduler) ∧ u.wiring = s.wiring ∧
      u.executions = s.executions ++ l := by
  induction hexecute with
  | empty _ => exact ⟨[], .refl, rfl, (List.append_nil _).symm⟩
  | @next s w u t notified ht hreturn _ ih =>
      obtain ⟨fuel, hret⟩ := hreturn.exists
      obtain ⟨hone, hwiring, hexecutions⟩ := takes_execute (v := v) hlaid ht hret
      obtain ⟨l, hrest, hwiring', hexecutions'⟩ := ih (hlaid.congr hwiring)
      refine ⟨[t] ++ l, hone.trans hrest, hwiring'.trans hwiring, ?_⟩
      rw [hexecutions', hexecutions, List.append_assoc]

private theorem takes_handleEvents (hL : ∀ t, L.associatedScheduler t = scheduler)
    (hret : Returns (fun fuel => s.handleEvents fuel) u) :
    Takes L scheduler e v (.resting s.scheduler) [] (.resting u.scheduler) ∧ Beside s u := by
  obtain ⟨fuel, hret⟩ := hret.exists
  obtain ⟨events, _, hret⟩ := bind_eq_ok.mp hret
  obtain rfl := Except.ok.inj hret
  exact takes_follow hL events

private theorem takes_loops (hlaid : LaidOut L scheduler e s) (hloops : Loops s u) :
    ∃ l, Takes L scheduler e v (.resting s.scheduler) l (.resting u.scheduler) ∧ u.wiring = s.wiring ∧
      u.executions = s.executions ++ l := by
  have hround : ∀ {s w x : SchedulerUnitTest τ γ η π θ}, LaidOut L scheduler e s →
      Returns (fun fuel => s.handleEvents fuel) w → Executes w x →
      ∃ l, Takes L scheduler e v (.resting s.scheduler) l (.resting x.scheduler) ∧ x.wiring = s.wiring ∧
        x.executions = s.executions ++ l := by
    intro s w x hlaid hhandle hexecute
    obtain ⟨hhandled, hbeside⟩ := takes_handleEvents (v := v) hlaid.associatedScheduler hhandle
    obtain ⟨l, hexecuted, hwiring, hexecutions⟩ :=
      takes_executes (v := v) (hlaid.congr hbeside.wiring) hexecute
    exact ⟨l, hhandled.silent hexecuted, hwiring.trans hbeside.wiring, hbeside.executions ▸ hexecutions⟩
  induction hloops with
  | last hhandle hexecute _ => exact hround hlaid hhandle hexecute
  | again hhandle hexecute _ _ ih =>
      obtain ⟨l, hone, hwiring, hexecutions⟩ := hround hlaid hhandle hexecute
      obtain ⟨m, hrest, hwiring', hexecutions'⟩ := ih (hlaid.congr hwiring)
      refine ⟨l ++ m, hone.trans hrest, hwiring'.trans hwiring, ?_⟩
      rw [hexecutions', hexecutions, List.append_assoc]

/-- The calls by which a started system works: pushes, operations on the events and `schedule`. -/
def Drives : UnitTestCall τ γ η π θ → Prop
  | .push _ | .event _ | .schedule _ => True
  | .wire _ | .construct _ _ | .configure _ _ _ _ | .setSynchron _ _ _ | .setCondition _ _ | .start _
  | .terminate _ => False

private theorem takes_step {c : UnitTestCall τ γ η π θ} (hlaid : LaidOut L scheduler e s)
    (hc : Drives c) (hstep : Step s c u) :
    ∃ l, Takes L scheduler e v (.resting s.scheduler) l (.resting u.scheduler) ∧ u.wiring = s.wiring ∧
      u.executions = s.executions ++ l := by
  cases c with
  | push inputs =>
      obtain rfl : u = { s with scheduler := s.scheduler.notifyAll inputs } := hstep
      exact ⟨[], takes_notifyAll hlaid.associatedScheduler inputs, rfl, (List.append_nil _).symm⟩
  | event c =>
      obtain ⟨_, events, _, rfl⟩ := hstep
      have hfollow : Takes L scheduler e v (.resting s.scheduler) []
        (.resting (s.follow events).scheduler) ∧
          Beside s (s.follow events) := takes_follow hlaid.associatedScheduler events
      exact ⟨[], hfollow.1, hfollow.2.wiring, hfollow.2.executions.trans (List.append_nil _).symm⟩
  | schedule span => exact takes_loops (s := s.step span) (hlaid.congr rfl) hstep
  | wire | construct | configure | setSynchron | setCondition | start | terminate => exact absurd hc id

theorem takes_run {calls : List (UnitTestCall τ γ η π θ)} (hlaid : LaidOut L scheduler e s)
    (hrun : Run (fun s call u => Drives call ∧ Step s call u) s calls u) :
    ∃ l, Takes L scheduler e v (.resting s.scheduler) l (.resting u.scheduler) ∧ u.wiring = s.wiring ∧
      u.executions = s.executions ++ l := by
  refine hrun.invariant (I := fun u => ∃ l,
    Takes L scheduler e v (.resting s.scheduler) l (.resting u.scheduler) ∧
    u.wiring = s.wiring ∧ u.executions = s.executions ++ l)
    ⟨[], .refl, rfl, (List.append_nil _).symm⟩ ?_
  intro x call w hinv hstep
  obtain ⟨l, hbefore, hwiring, hexecutions⟩ := hinv
  obtain ⟨m, hone, hwiring', hexecutions'⟩ := takes_step (v := v) (hlaid.congr hwiring) hstep.1 hstep.2
  refine ⟨l ++ m, hbefore.trans hone, hwiring'.trans hwiring, ?_⟩
  rw [hexecutions', hexecutions, List.append_assoc]

/-- Whatever a unit test of a started system does by pushes, by operations on events and by
`schedule`, with groups, alternative conditions and any policy: it is a run of executors and
notifying threads, which executes the same tasks in the same order and ends with the same states,
inputs and run queue. -/
theorem run_interleaves {calls : List (UnitTestCall τ γ η π θ)} {c : System τ σ ε γ ν}
    (hlaid : LaidOut L scheduler e s) (hshows : Shows scheduler e v (.resting s.scheduler) c)
    (hrun : Run (fun s call u => Drives call ∧ Step s call u) s calls u) :
    ∃ acts c', Run (System.Step L) c acts c' ∧ Shows scheduler e v (.resting u.scheduler) c' ∧
      u.executions = s.executions ++ acts.filterMap SystemAction.executedTask := by
  obtain ⟨l, htakes, _, hexecutions⟩ := takes_run (v := v) hlaid hrun
  obtain ⟨acts, c', hacts, rfl, hshows'⟩ := htakes c hshows
  exact ⟨acts, c', hacts, hshows', hexecutions⟩

/-- One task is constructed, and nothing has been started. -/
def single : SchedulerUnitTest Unit Unit Unit Unit Unit where
  wiring := .init
  scheduler := ⟨fun _ => ⟨.finish, .configured 1 fun _ => 1⟩, [()], false, []⟩
  events := .init 0 fun _ => 0
  executions := []

theorem single_runs : ∃ s₁ s : SchedulerUnitTest Unit Unit Unit Unit Unit,
    Step single (.start true) s₁ ∧
    Run (fun s call u => Drives call ∧ Step s call u) s₁ [.push [((), 0)], .schedule 0] s ∧
      s₁.executions = [] ∧ s.executions = [()] ∧ s.scheduler.runQueue = [] := by
  let s₁ : SchedulerUnitTest Unit Unit Unit Unit Unit :=
    { single with scheduler := single.scheduler.start true }
  let s₂ : SchedulerUnitTest Unit Unit Unit Unit Unit :=
    { s₁ with scheduler := s₁.scheduler.notifyAll [((), 0)] }
  let s : SchedulerUnitTest Unit Unit Unit Unit Unit :=
    { s₂ with scheduler := s₂.scheduler.execute (), executions := [()] }
  have hstart : Step single (.start true) s₁ := returns_of_add 0 fun _ => rfl
  have hhandle : Returns (fun fuel => (s₂.step 0).handleEvents fuel) s₂ :=
    returns_of_add 1 fun fuel => rfl
  have hexecute : Returns (fun fuel => s₂.execute fuel () []) s := returns_of_add 0 fun _ => rfl
  have hschedule : Step s₂ (.schedule 0) s :=
    .last hhandle (.next List.mem_cons_self hexecute (.empty rfl)) rfl
  exact ⟨s₁, s, hstart, (Run.start.next ⟨trivial, rfl⟩).next ⟨trivial, hschedule⟩, rfl, rfl, rfl⟩

theorem run_interleaves_single : ∃ (s : SchedulerUnitTest Unit Unit Unit Unit Unit)
    (c c' : System Unit Unit Unit Unit Unit) (acts : List (SystemAction Unit Unit Unit)),
    Run (System.Step .single) c acts c' ∧ Shows () () () (.resting s.scheduler) c' ∧
      s.executions = [()] ∧
      acts.filterMap SystemAction.executedTask = [()] := by
  obtain ⟨s₁, s, hstart, hrun, hnone, hexecutions, _⟩ := single_runs
  let c : System Unit Unit Unit Unit Unit :=
    ⟨s₁.scheduler.task, fun _ => s₁.scheduler.running, fun _ => s₁.scheduler.runQueue,
      fun _ => none, fun _ => .idle,
      fun _ => .idle⟩
  have hshows : Shows () () () (.resting s₁.scheduler) c := ⟨rfl, rfl, rfl, rfl, rfl, rfl⟩
  obtain ⟨fuel, hret⟩ := hstart.exists
  have hlaid : LaidOut .single () () s₁ :=
    LaidOut.congr ⟨fun _ => rfl, rfl, rfl, rfl⟩ (resets_beside hret).wiring
  obtain ⟨acts, c', hacts, hshows', hall⟩ := run_interleaves hlaid hshows hrun
  rw [hnone, hexecutions, List.nil_append] at hall
  exact ⟨s, c, c', acts, hacts, hshows', hexecutions, hall.symm⟩

end SchedulerUnitTest

end TaskingFramework
