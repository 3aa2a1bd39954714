import TaskingFramework.Task.System

/-!
# One task of the system

What the threads hold of a single task, and what a thread can do to it.
-/

set_option linter.unusedSectionVars false

namespace TaskingFramework

/-- What an executor does with the task. -/
inductive Stage where
  | fetched
  | executing
  | resetting (pc : ResetPc)
  deriving DecidableEq

/-- What a notifying thread still has to do for the task. -/
inductive Notice where
  | counted (i : Nat)
  | activating
  deriving DecidableEq

structure TaskView (ε ν : Type*) where
  task : TaskImpl
  queued : Nat
  stage : ε → Option Stage
  notice : ν → Option Notice

/-- What counts in the history of the task. -/
inductive TaskEvent where
  | notified (i : Nat)
  | executed
  | silent
  deriving DecidableEq

namespace TaskView

variable {ε ν : Type*} [DecidableEq ε] [DecidableEq ν]

def setStage (v : TaskView ε ν) (e : ε) (stage : Option Stage) : TaskView ε ν :=
  { v with stage := Function.update v.stage e stage }

def setNotice (v : TaskView ε ν) (c : ν) (notice : Option Notice) : TaskView ε ν :=
  { v with notice := Function.update v.notice c notice }

/-- Take over a new state of the task and queue it if it is to be performed. -/
def put (v : TaskView ε ν) (r : TaskImpl × Bool) : TaskView ε ν :=
  { v with task := r.1, queued := v.queued + if r.2 then 1 else 0 }

inductive Step (v : TaskView ε ν) : TaskEvent → TaskView ε ν → Prop where
  | other : Step v .silent v
  | notify {c : ν} {i : Nat} {x : Input} (hc : v.notice c = none)
      (hx : v.task.inputs.inputs[i]? = some x) :
      Step v (.notified i) ((v.put (v.task.setInput i x.notify.1, false)).setNotice c
        (if x.notify.2 then some (.counted i) else none))
  | check {c : ν} {i : Nat} {x : Input} (hc : v.notice c = some (.counted i))
      (hx : v.task.inputs.inputs[i]? = some x) :
      Step v .silent (v.setNotice c (if x.isActivated then some .activating else none))
  | activate {c : ν} (hc : v.notice c = some .activating) :
      Step v .silent ((v.put v.task.activate).setNotice c none)
  | fetch {e : ε} (he : v.stage e = none) (hq : 0 < v.queued) :
      Step v .silent ({ v with queued := v.queued - 1 }.setStage e (some .fetched))
  | start {e : ε} (he : v.stage e = some .fetched) : Step v .silent (v.setStage e (some .executing))
  | executed {e : ε} (he : v.stage e = some .executing) :
      Step v .executed (v.setStage e (some (.resetting .enter)))
  | resetEnter {e : ε} (he : v.stage e = some (.resetting .enter)) :
      Step v .silent ((v.put (v.task.resetEnter, false)).setStage e
        (some (.resetting (v.task.nextInput 0))))
  | resetInput {e : ε} {i : Nat} (he : v.stage e = some (.resetting (.input i))) :
      Step v .silent ((v.put ((v.task.resetInput i).1, false)).setStage e
        (some (.resetting (if (v.task.resetInput i).2 then .activate i
          else v.task.nextInput (i + 1)))))
  | resetActivate {e : ε} {i : Nat} (he : v.stage e = some (.resetting (.activate i))) :
      Step v .silent ((v.put v.task.activate).setStage e
        (some (.resetting (v.task.nextInput (i + 1)))))
  | resetFinish {e : ε} (he : v.stage e = some (.resetting .finish)) :
      Step v .silent ((v.put v.task.resetFinish).setStage e none)

end TaskView

section Projection

variable {τ σ ε γ ν : Type*} [DecidableEq τ]

def ExecutePc.stage (t : τ) : ExecutePc τ γ → Option Stage
  | .fetched u => if u = t then some .fetched else none
  | .executing u => if u = t then some .executing else none
  | .resetting u pc _ => if u = t then some (.resetting pc) else none
  | .idle | .finishing _ _ | .checking _ _ | .leaving => none

def NotifierPc.notice (t : τ) : NotifierPc τ → Option Notice
  | .idle => none
  | .counted u i => if u = t then some (.counted i) else none
  | .activating u => if u = t then some .activating else none

def SystemAction.event (t : τ) : SystemAction τ ε ν → TaskEvent
  | .notify _ u i => if u = t then .notified i else .silent
  | .executed _ u => if u = t then .executed else .silent
  | _ => .silent

namespace System

def view (L : Layout τ σ ε γ) (t : τ) (s : System τ σ ε γ ν) : TaskView ε ν where
  task := s.task t
  queued := (s.runQueue (L.associatedScheduler t)).count t
  stage e := (s.executor e).stage t
  notice c := (s.notifier c).notice t

variable {L : Layout τ σ ε γ} {t u : τ} {s s' : System τ σ ε γ ν} {task : TaskImpl}

theorem event_executed {a : SystemAction τ ε ν} (h : a.event t = .executed) :
    ∃ e, a = .executed e t := by
  cases a with
  | executed e u =>
      by_cases hu : u = t
      · exact ⟨e, hu ▸ rfl⟩
      · simp [SystemAction.event, hu] at h
  | notify c u i => by_cases hu : u = t <;> simp [SystemAction.event, hu] at h
  | check | activate | nextTask | synchronizeStart | finish | isExecuted | reset | leave =>
      simp [SystemAction.event] at h

theorem event_notified {a : SystemAction τ ε ν} {i : Nat} (h : a.event t = .notified i) :
    ∃ v, a = .notify v t i := by
  cases a with
  | notify v u j =>
      by_cases hu : u = t
      · simp only [SystemAction.event, hu, if_true, TaskEvent.notified.injEq] at h
        exact ⟨v, hu ▸ h ▸ rfl⟩
      · simp [SystemAction.event, hu] at h
  | executed e u => by_cases hu : u = t <;> simp [SystemAction.event, hu] at h
  | check | activate | nextTask | synchronizeStart | finish | isExecuted | reset | leave =>
      simp [SystemAction.event] at h

@[simp] theorem view_task : (s.view L t).task = s.task t := rfl

theorem view_setTask_self :
    (s.setTask t task).view L t = (s.view L t).put (task, false) := by
  simp [view, setTask, TaskView.put]

theorem view_setTask_of_ne (h : u ≠ t) : (s.setTask u task).view L t = s.view L t := by
  simp [view, setTask, Function.update_of_ne h.symm]

theorem view_setExecutor [DecidableEq ε] (e : ε) (pc : ExecutePc τ γ) :
    (s.setExecutor e pc).view L t = (s.view L t).setStage e (pc.stage t) := by
  have h : (fun f => (Function.update s.executor e pc f).stage t) =
      Function.update (fun f => (s.executor f).stage t) e (pc.stage t) := by
    funext f
    by_cases hf : f = e
    · subst f
      simp
    · simp [hf]
  simp [view, setExecutor, TaskView.setStage, h]

theorem view_setNotifier [DecidableEq ν] (c : ν) (pc : NotifierPc τ) :
    (s.setNotifier c pc).view L t = (s.view L t).setNotice c (pc.notice t) := by
  have h : (fun d => (Function.update s.notifier c pc d).notice t) =
      Function.update (fun d => (s.notifier d).notice t) c (pc.notice t) := by
    funext d
    by_cases hd : d = c
    · subst d
      simp
    · simp [hd]
  simp [view, setNotifier, TaskView.setNotice, h]

theorem view_setMutex [DecidableEq σ] (scheduler : σ) (owner : Option ε) :
    (s.setMutex scheduler owner).view L t = s.view L t := rfl

theorem setStage_view [DecidableEq ε] {e : ε} {x : Option Stage} (h : (s.executor e).stage t = x) :
    (s.view L t).setStage e x = s.view L t := by
  subst x
  simp only [TaskView.setStage]
  congr
  exact Function.update_eq_self (f := (s.view L t).stage) e

theorem setNotice_view [DecidableEq ν] {c : ν} {x : Option Notice}
    (h : (s.notifier c).notice t = x) : (s.view L t).setNotice c x = s.view L t := by
  subst x
  simp only [TaskView.setNotice]
  congr
  exact Function.update_eq_self (f := (s.view L t).notice) c

section Perform

variable [DecidableEq σ]

private theorem view_perform_self (h : s.running (L.associatedScheduler t) = true) :
    (s.perform L t).view L t = { s.view L t with queued := (s.view L t).queued + 1 } := by
  simp [view, perform, h, setRunQueue]

private theorem view_perform_of_ne (h : u ≠ t) : (s.perform L u).view L t = s.view L t := by
  by_cases hr : s.running (L.associatedScheduler u) = true
  · by_cases hs : L.associatedScheduler t = L.associatedScheduler u
    · simp [view, perform, hr, setRunQueue, hs, h]
    · simp [view, perform, hr, setRunQueue, hs]
  · simp [perform, hr]

theorem view_activate_self (h : s.running (L.associatedScheduler t) = true) :
    (s.activate L t).view L t = (s.view L t).put (s.task t).activate := by
  by_cases hr : (s.task t).activate.2 = true
  · have hrun : (s.setTask t (s.task t).activate.1).running (L.associatedScheduler t) = true := h
    simp only [activate, hr, if_true, view_perform_self hrun, view_setTask_self]
    simp [TaskView.put, hr]
  · simp [activate, hr, view_setTask_self, TaskView.put]

theorem view_activate_of_ne (h : u ≠ t) : (s.activate L u).view L t = s.view L t := by
  by_cases hr : (s.task u).activate.2 = true
  · simp [activate, hr, view_perform_of_ne h, view_setTask_of_ne h]
  · simp [activate, hr, view_setTask_of_ne h]

theorem view_resetFinish_self (h : s.running (L.associatedScheduler t) = true) :
    (s.resetFinish L t).view L t = (s.view L t).put (s.task t).resetFinish := by
  by_cases hr : (s.task t).resetFinish.2 = true
  · have hrun : (s.setTask t (s.task t).resetFinish.1).running (L.associatedScheduler t) = true := h
    simp only [resetFinish, hr, if_true, view_perform_self hrun, view_setTask_self]
    simp [TaskView.put, hr]
  · simp [resetFinish, hr, view_setTask_self, TaskView.put]

theorem view_resetFinish_of_ne (h : u ≠ t) : (s.resetFinish L u).view L t = s.view L t := by
  by_cases hr : (s.task u).resetFinish.2 = true
  · simp [resetFinish, hr, view_perform_of_ne h, view_setTask_of_ne h]
  · simp [resetFinish, hr, view_setTask_of_ne h]

end Perform

end System

end Projection

end TaskingFramework
