import TaskingFramework.Task.TaskView

/-!
# What a step does to one task

Every step of the system is a step of the task's view, leaves the view as it is, or is a move of the
group of the task.
-/

set_option linter.unusedSectionVars false

namespace TaskingFramework

variable {τ σ ε γ ν : Type*} [DecidableEq τ]

/-- The task has joined no group. -/
structure Layout.Ungrouped (L : Layout τ σ ε γ) (t : τ) : Prop where
  group : L.group t = none
  taskList : ∀ group, t ∉ L.taskList group

private theorem stage_resetMembers {t : τ} {members : List τ} (h : t ∉ members) :
    (ExecutePc.resetMembers members : ExecutePc τ γ).stage t = none := by
  cases members with
  | nil => rfl
  | cons u members =>
      have hu : u ≠ t := fun hut => h (hut ▸ List.mem_cons_self)
      simp [ExecutePc.resetMembers, ExecutePc.stage, hu]

namespace System

variable {L : Layout τ σ ε γ} {t u : τ} {s s' : System τ σ ε γ ν}

/-- No executor is about to touch the task in the name of a group, and the run queue of no other
scheduler holds the task. -/
structure Apart (L : Layout τ σ ε γ) (t : τ) (s : System τ σ ε γ ν) : Prop where
  running : s.running (L.associatedScheduler t) = true
  finishing : ∀ e u group, s.executor e = .finishing u group → u ≠ t
  members : ∀ e u pc members, s.executor e = .resetting u pc members → t ∉ members
  elsewhere : ∀ scheduler, t ∈ s.runQueue scheduler → scheduler = L.associatedScheduler t

variable [DecidableEq σ] [DecidableEq ε] [DecidableEq γ] [DecidableEq ν] {a : SystemAction τ ε ν}

/-- The scheduler of the task runs, and the run queue of no other one holds the task. -/
structure Placed (L : Layout τ σ ε γ) (t : τ) (s : System τ σ ε γ ν) : Prop where
  running : s.running (L.associatedScheduler t) = true
  elsewhere : ∀ scheduler, t ∈ s.runQueue scheduler → scheduler = L.associatedScheduler t

section Preservation

variable (h : s.Placed L t)
include h

theorem Placed.setTask (task : TaskImpl) : (s.setTask u task).Placed L t :=
  ⟨h.running, h.elsewhere⟩

private theorem Placed.setNotifier (c : ν) (pc : NotifierPc τ) : (s.setNotifier c pc).Placed L t :=
  ⟨h.running, h.elsewhere⟩

private theorem Placed.setMutex (scheduler : σ) (owner : Option ε) :
    (s.setMutex scheduler owner).Placed L t :=
  ⟨h.running, h.elsewhere⟩

private theorem Placed.setExecutor (e : ε) (pc : ExecutePc τ γ) : (s.setExecutor e pc).Placed L t :=
  ⟨h.running, h.elsewhere⟩

private theorem Placed.setRunQueue {scheduler : σ} {queue : List τ}
    (hq : t ∈ queue → scheduler = L.associatedScheduler t) :
    (s.setRunQueue scheduler queue).Placed L t := by
  refine ⟨h.running, ?_⟩
  intro scheduler' ht
  by_cases hs : scheduler' = scheduler
  · rw [hs]
    exact hq (by simpa [System.setRunQueue, hs] using ht)
  · exact h.elsewhere scheduler' (by simpa [System.setRunQueue, hs] using ht)

private theorem Placed.perform : (s.perform L u).Placed L t := by
  by_cases hr : s.running (L.associatedScheduler u) = true
  · rw [System.perform, if_pos hr]
    apply h.setRunQueue
    intro ht
    rcases List.mem_append.mp ht with ht | ht
    · exact h.elsewhere _ ht
    · rw [List.mem_singleton.mp ht]
  · rw [System.perform, if_neg hr]
    exact h

theorem Placed.activate : (s.activate L u).Placed L t := by
  by_cases hr : (s.task u).activate.2 = true
  · rw [System.activate, if_pos hr]
    exact (h.setTask _).perform
  · rw [System.activate, if_neg hr]
    exact h.setTask _

theorem Placed.resetFinish : (s.resetFinish L u).Placed L t := by
  by_cases hr : (s.task u).resetFinish.2 = true
  · rw [System.resetFinish, if_pos hr]
    exact (h.setTask _).perform
  · rw [System.resetFinish, if_neg hr]
    exact h.setTask _

end Preservation

theorem placed_step (hs : s.Placed L t) (h : Step L s a s') : s'.Placed L t := by
  cases step_acts h with
  | notify => exact (hs.setTask _).setNotifier _ _
  | check => exact hs.setNotifier _ _
  | activate => exact hs.activate.setNotifier _ _
  | nextTask =>
      apply Placed.setExecutor
      exact hs.setRunQueue fun ht => hs.elsewhere _ (List.mem_of_mem_erase ht)
  | synchronizeStart | isExecuted | areAllExecuted => exact hs.setExecutor _ _
  | executed | leave => exact (hs.setMutex _ _).setExecutor _ _
  | finish | resetEnter | resetInput => exact (hs.setTask _).setExecutor _ _
  | resetActivate => exact hs.activate.setExecutor _ _
  | resetFinish => exact hs.resetFinish.setExecutor _ _

end System

/-- How an executor of a scheduler with this run queue gets on in `SchedulerImpl::execute`. -/
inductive ExecutePc.Next (L : Layout τ σ ε γ) (queue : List τ) :
    ExecutePc τ γ → ExecutePc τ γ → Prop where
  | fetch {t : τ} (ht : t ∈ queue) : Next L queue .idle (.fetched t)
  | start {t : τ} : Next L queue (.fetched t) (.executing t)
  | executed {t : τ} : Next L queue (.executing t) (L.finalizeExecution t)
  | finish {t : τ} {group : γ} :
      Next L queue (.finishing t group) (.checking group (L.taskList group))
  | isExecuted {group : γ} {t : τ} {members : List τ} :
      Next L queue (.checking group (t :: members)) (.checking group members)
  | notExecuted {group : γ} {members : List τ} : Next L queue (.checking group members) .leaving
  | areAllExecuted {group : γ} :
      Next L queue (.checking group []) (.resetMembers (L.taskList group))
  | resetting {t : τ} {pc pc' : ResetPc} {members : List τ} :
      Next L queue (.resetting t pc members) (.resetting t pc' members)
  | reset {t : τ} {members : List τ} :
      Next L queue (.resetting t .finish members) (.resetMembers members)
  | leave : Next L queue .leaving .idle

private theorem ExecutePc.resetMembers_eq {l members : List τ} {t : τ} {pc : ResetPc}
    (h : (resetMembers l : ExecutePc τ γ) = .resetting t pc members) : l = t :: members := by
  cases l with
  | nil => simp [resetMembers] at h
  | cons u l =>
      simp only [resetMembers, ExecutePc.resetting.injEq] at h
      rw [h.1, h.2.2]

private theorem ExecutePc.resetMembers_ne_executing {u : τ} (members : List τ) :
    (resetMembers members : ExecutePc τ γ) ≠ .executing u := by
  cases members <;> simp [resetMembers]

private theorem ExecutePc.resetMembers_ne_finishing {u : τ} {group : γ} (members : List τ) :
    (resetMembers members : ExecutePc τ γ) ≠ .finishing u group := by
  cases members <;> simp [resetMembers]

theorem Layout.finalizeExecution_ne_executing (L : Layout τ σ ε γ) (t u : τ) :
    L.finalizeExecution t ≠ .executing u := by
  unfold Layout.finalizeExecution
  split <;> simp

namespace ExecutePc.Next

variable {L : Layout τ σ ε γ} {queue members : List τ} {t : τ} {group : γ} {pc : ExecutePc τ γ}
  {p : ResetPc}

theorem before_fetched (h : pc.Next L queue (.fetched t)) : t ∈ queue := by
  generalize hafter : (ExecutePc.fetched t : ExecutePc τ γ) = after at h
  cases h with
  | fetch ht =>
      rw [ExecutePc.fetched.inj hafter]
      exact ht
  | @executed u => cases hu : L.group u <;> simp [Layout.finalizeExecution, hu] at hafter
  | @areAllExecuted g => cases hl : L.taskList g <;> simp [resetMembers, hl] at hafter
  | @reset _ us => cases us <;> simp [resetMembers] at hafter
  | start | finish | isExecuted | notExecuted | resetting | leave => simp at hafter

theorem before_executing (h : pc.Next L queue (.executing t)) : pc = .fetched t := by
  generalize hafter : (ExecutePc.executing t : ExecutePc τ γ) = after at h
  cases h with
  | start => rw [ExecutePc.executing.inj hafter]
  | executed => exact absurd hafter.symm (L.finalizeExecution_ne_executing _ t)
  | areAllExecuted | reset => exact absurd hafter.symm (resetMembers_ne_executing _)
  | fetch | finish | isExecuted | notExecuted | resetting | leave => simp at hafter

theorem before_finishing (h : pc.Next L queue (.finishing t group)) :
    pc = .executing t ∧ L.group t = some group := by
  generalize hafter : (ExecutePc.finishing t group : ExecutePc τ γ) = after at h
  cases h with
  | @executed u =>
      cases hu : L.group u with
      | none => simp [Layout.finalizeExecution, hu] at hafter
      | some g =>
          simp only [Layout.finalizeExecution, hu, ExecutePc.finishing.injEq] at hafter
          rw [hafter.1, hafter.2]
          exact ⟨rfl, hu⟩
  | areAllExecuted | reset => exact absurd hafter.symm (resetMembers_ne_finishing _)
  | fetch | start | finish | isExecuted | notExecuted | resetting | leave => simp at hafter

/-- The ways into the reset of a task: alone behind its execution, as the first member of its group, on
from an earlier section of it, or behind the reset of the member in front of it. -/
theorem before_resetting (h : pc.Next L queue (.resetting t p members)) :
    (pc = .executing t ∧ L.group t = none ∧ members = []) ∨
      (∃ group, L.taskList group = t :: members) ∨ (∃ p', pc = .resetting t p' members) ∨
        ∃ u, pc = .resetting u .finish (t :: members) := by
  generalize hafter : (ExecutePc.resetting t p members : ExecutePc τ γ) = after at h
  cases h with
  | @executed u =>
      cases hu : L.group u with
      | none =>
          simp only [Layout.finalizeExecution, hu, ExecutePc.resetting.injEq] at hafter
          rw [hafter.1]
          exact Or.inl ⟨rfl, hu, hafter.2.2⟩
      | some g => simp [Layout.finalizeExecution, hu] at hafter
  | @areAllExecuted g => exact Or.inr (Or.inl ⟨g, resetMembers_eq hafter.symm⟩)
  | @resetting u p' _ us =>
      rw [ExecutePc.resetting.injEq] at hafter
      rw [hafter.1, hafter.2.2]
      exact Or.inr (Or.inr (Or.inl ⟨p', rfl⟩))
  | @reset u us =>
      rw [resetMembers_eq hafter.symm]
      exact Or.inr (Or.inr (Or.inr ⟨u, rfl⟩))
  | fetch | start | finish | isExecuted | notExecuted | leave => simp at hafter

end ExecutePc.Next

/-- The executor that takes the step. -/
def SystemAction.executor : SystemAction τ ε ν → Option ε
  | .notify _ _ _ | .check _ | .activate _ => none
  | .nextTask e _ | .synchronizeStart e | .executed e _ | .finish e | .isExecuted e | .reset e
  | .leave e => some e

namespace System

variable {L : Layout τ σ ε γ} {t u : τ} {s s' : System τ σ ε γ ν} [DecidableEq σ] [DecidableEq ε]
  [DecidableEq γ] [DecidableEq ν] {a : SystemAction τ ε ν}

@[simp] theorem perform_executor : (s.perform L u).executor = s.executor := by
  by_cases hr : s.running (L.associatedScheduler u) = true <;> simp [perform, hr, setRunQueue]

@[simp] theorem activate_executor : (s.activate L u).executor = s.executor := by
  by_cases hr : (s.task u).activate.2 = true <;> simp [activate, hr, setTask]

@[simp] theorem resetFinish_executor : (s.resetFinish L u).executor = s.executor := by
  by_cases hr : (s.task u).resetFinish.2 = true <;> simp [resetFinish, hr, setTask]

/-- A step leaves an executor where it stands, or it is one of its own steps. -/
theorem step_executor (h : Step L s a s') (f : ε) :
    s'.executor f = s.executor f ∨ a.executor = some f ∧
      (s.executor f).Next L (s.runQueue (L.scheduler f)) (s'.executor f) := by
  have hmove : ∀ {r : System τ σ ε γ ν} {e : ε} {pc pc' : ExecutePc τ γ}, r.executor = s.executor →
      s.executor e = pc → pc.Next L (s.runQueue (L.scheduler e)) pc' →
      (r.setExecutor e pc').executor f = s.executor f ∨ some e = some f ∧
        (s.executor f).Next L (s.runQueue (L.scheduler f)) ((r.setExecutor e pc').executor f) := by
    intro r e pc pc' hr he hnext
    by_cases hf : f = e
    · subst f
      exact Or.inr ⟨rfl, by simpa [setExecutor, he] using hnext⟩
    · exact Or.inl (by simp [setExecutor, hr, hf])
  cases step_acts h with
  | notify | check => exact Or.inl rfl
  | activate => exact Or.inl (congrFun activate_executor f)
  | nextTask he ht => exact hmove rfl he (.fetch ht)
  | synchronizeStart he => exact hmove rfl he .start
  | executed he => exact hmove rfl he .executed
  | finish he => exact hmove rfl he .finish
  | @isExecuted _ _ u _ he =>
      apply hmove rfl he
      cases (s.task u).isExecuted with
      | true => exact .isExecuted
      | false => exact .notExecuted
  | areAllExecuted he => exact hmove rfl he .areAllExecuted
  | resetEnter he => exact hmove rfl he .resetting
  | resetInput he => exact hmove rfl he .resetting
  | resetActivate he => exact hmove activate_executor he .resetting
  | resetFinish he => exact hmove resetFinish_executor he .reset
  | leave he => exact hmove rfl he .leave

theorem step_executor_eq (h : Step L s a s') (ha : a.executor = none) : s'.executor = s.executor := by
  funext e
  rcases step_executor h e with heq | ⟨hact, _⟩
  · exact heq
  · simp [ha] at hact

theorem started_executor {e : ε} (h : Step L s (.synchronizeStart e) s')
    (he : s.executor e = .fetched u) :
    s'.executor e = .executing u := by
  cases step_acts h with
  | synchronizeStart he' =>
      obtain rfl := ExecutePc.fetched.inj (he.symm.trans he')
      simp [setExecutor]

theorem executed_executor {e : ε} (h : Step L s (.executed e u) s') :
    s.executor e = .executing u ∧ s'.executor e = L.finalizeExecution u := by
  cases step_acts h with
  | executed he => exact ⟨he, by simp [setExecutor]⟩

/-- An executor that has fetched a task stays there up to its `synchronizeStart`. -/
theorem step_fetched (h : Step L s a s') {e : ε} (he : s.executor e = .fetched u) :
    s'.executor e = .fetched u ∨ a = .synchronizeStart e := by
  rcases step_executor h e with heq | ⟨hact, _⟩
  · exact Or.inl (heq.trans he)
  · cases a <;> simp only [SystemAction.executor, Option.some.injEq, reduceCtorEq] at hact <;>
      subst hact <;> simp [Step, step, he] at h ⊢

/-- An executor that executes a task goes on to do so up to the end of `execute`. -/
theorem step_executing (h : Step L s a s') {e : ε} (he : s.executor e = .executing u) :
    s'.executor e = .executing u ∨ a = .executed e u := by
  rcases step_executor h e with heq | ⟨hact, _⟩
  · exact Or.inl (heq.trans he)
  · cases a <;> simp only [SystemAction.executor, Option.some.injEq, reduceCtorEq] at hact <;>
      subst hact <;> simp [Step, step, he] at h ⊢
    exact Or.inr h.1.1.symm

/-- An executor executes a task only from its `synchronizeStart` on. -/
theorem step_executing_of (h : Step L s a s') {e : ε} (he : s'.executor e = .executing u) :
    s.executor e = .executing u ∨ a = .synchronizeStart e ∧ s.executor e = .fetched u := by
  rcases step_executor h e with heq | ⟨_, hnext⟩
  · exact Or.inl (heq ▸ he)
  · rw [he] at hnext
    have hfetched := hnext.before_executing
    rcases step_fetched h hfetched with heq | hact
    · simp [he] at heq
    · exact Or.inr ⟨hact, hfetched⟩

theorem apart_step (hL : L.Ungrouped t) (hs : s.Apart L t) (h : Step L s a s') : s'.Apart L t := by
  have hplaced : s'.Placed L t := placed_step ⟨hs.running, hs.elsewhere⟩ h
  refine ⟨hplaced.running, ?_, ?_, hplaced.elsewhere⟩
  · intro e u group he hu
    subst u
    rcases step_executor h e with heq | ⟨_, hnext⟩
    · exact hs.finishing e t group (heq ▸ he) rfl
    · rw [he] at hnext
      have hg := hnext.before_finishing.2
      simp [hL.group] at hg
  · intro e u p us he
    rcases step_executor h e with heq | ⟨_, hnext⟩
    · exact hs.members e u p us (heq ▸ he)
    · rw [he] at hnext
      rcases hnext.before_resetting with ⟨_, _, rfl⟩ | ⟨g, hlist⟩ | ⟨p', hbefore⟩ | ⟨v, hbefore⟩
      · exact List.not_mem_nil
      · exact fun ht => hL.taskList g (hlist ▸ List.mem_cons_of_mem u ht)
      · exact hs.members e u p' us hbefore
      · exact fun ht => hs.members e v _ _ hbefore (List.mem_cons_of_mem u ht)

/-- What a step does to the view of any task: a step of the view, or a move of its group. -/
inductive Moved (L : Layout τ σ ε γ) (t : τ) (s s' : System τ σ ε γ ν) : SystemAction τ ε ν → Prop where
  | own {a : SystemAction τ ε ν} (hstep : (s.view L t).Step (a.event t) (s'.view L t))
      (hevent : a.event t ≠ .executed)
      (hstage : ∀ e, (s.view L t).stage e ≠ none → (s'.view L t).stage e ≠ none) : Moved L t s s' a
  | executed {e : ε} (he : s.executor e = .executing t)
      (hview : s'.view L t = (s.view L t).setStage e ((L.finalizeExecution t).stage t)) :
      Moved L t s s' (.executed e t)
  | finish {e : ε} {group : γ} (he : s.executor e = .finishing t group)
      (hview : s'.view L t = (s.view L t).put ({ s.task t with state := .finish }, false)) :
      Moved L t s s' (.finish e)
  | begins {e : ε} {group : γ} {members : List τ} (he : s.executor e = .checking group [])
      (hlist : L.taskList group = t :: members)
      (hview : s'.view L t = (s.view L t).setStage e (some (.resetting .enter))) :
      Moved L t s s' (.isExecuted e)
  | next {e : ε} {u : τ} {members : List τ} (hu : u ≠ t)
      (he : s.executor e = .resetting u .finish (t :: members))
      (hview : s'.view L t = (s.view L t).setStage e (some (.resetting .enter))) :
      Moved L t s s' (.reset e)
  | resetFinish {e : ε} {members : List τ} (he : s.executor e = .resetting t .finish members)
      (hview : s'.view L t = ((s.view L t).put (s.task t).resetFinish).setStage e
        ((ExecutePc.resetMembers members : ExecutePc τ γ).stage t)) :
      Moved L t s s' (.reset e)

private theorem Moved.other (hview : s'.view L t = s.view L t) (hevent : a.event t = .silent) :
    Moved L t s s' a := by
  refine .own ?_ (by simp [hevent]) (by simp [hview])
  rw [hview, hevent]
  exact .other

private theorem Moved.elsewhere {r : System τ σ ε γ ν} {e : ε} {pc : ExecutePc τ γ}
    (hevent : a.event t = .silent) (he : (s.executor e).stage t = none) (hpc : pc.stage t = none)
    (hr : r.view L t = s.view L t) : Moved L t s (r.setExecutor e pc) a := by
  refine .other ?_ hevent
  rw [view_setExecutor, hr, hpc, setStage_view he]

private theorem Moved.unnoticed {r : System τ σ ε γ ν} {c : ν} {pc : NotifierPc τ}
    (hevent : a.event t = .silent) (hc : (s.notifier c).notice t = none) (hpc : pc.notice t = none)
    (hr : r.view L t = s.view L t) : Moved L t s (r.setNotifier c pc) a := by
  refine .other ?_ hevent
  rw [view_setNotifier, hr, hpc, setNotice_view hc]

private theorem Moved.works {v : TaskView ε ν} {e : ε} {stage : Stage}
    (hevent : a.event t = .silent) (hview : s'.view L t = v.setStage e (some stage))
    (hstep : (s.view L t).Step .silent (v.setStage e (some stage)))
    (hv : v.stage = (s.view L t).stage) : Moved L t s s' a := by
  refine .own ?_ (by simp [hevent]) ?_
  · rw [hview, hevent]
    exact hstep
  · intro f hf
    rw [hview]
    by_cases hfe : f = e
    · simp [TaskView.setStage, hfe]
    · simpa [TaskView.setStage, hfe, hv] using hf

private theorem view_fetched {e : ε} (hsch : L.scheduler e = L.associatedScheduler t) :
    ((s.setRunQueue (L.scheduler e) ((s.runQueue (L.scheduler e)).erase t)).setExecutor e
      (.fetched t)).view L t =
      { s.view L t with queued := (s.view L t).queued - 1 }.setStage e (some .fetched) := by
  rw [view_setExecutor]
  simp [view, setRunQueue, hsch, ExecutePc.stage]

private theorem view_erase_of_ne {σ' : σ} (hu : u ≠ t) :
    (s.setRunQueue σ' ((s.runQueue σ').erase u)).view L t = s.view L t := by
  by_cases hsch : L.associatedScheduler t = σ'
  · simp [view, setRunQueue, hsch, List.count_erase, hu]
  · simp [view, setRunQueue, hsch]

theorem step_moved (hs : s.Placed L t) (h : Step L s a s') : Moved L t s s' a := by
  cases step_acts h with
  | @notify c u i x hc hx =>
      have hn : (s.notifier c).notice t = none := by rw [hc, NotifierPc.notice]
      by_cases hu : u = t
      · subst u
        refine .own ?_ (by simp [SystemAction.event]) (fun e he => he)
        rw [view_setNotifier, view_setTask_self]
        have hstep := TaskView.Step.notify (v := s.view L t) hn hx
        cases hnot : x.notify.2 <;> simpa [SystemAction.event, NotifierPc.notice, hnot] using hstep
      · refine .unnoticed (by simp [SystemAction.event, hu]) hn ?_ (view_setTask_of_ne hu)
        cases x.notify.2 <;> simp [NotifierPc.notice, hu]
  | @check c u i x hc hx =>
      by_cases hu : u = t
      · subst u
        have hn : (s.view L t).notice c = some (.counted i) := by simp [view, hc, NotifierPc.notice]
        refine .own ?_ (by simp [SystemAction.event]) (fun e he => he)
        rw [view_setNotifier]
        have hstep := TaskView.Step.check hn hx
        cases hact : x.isActivated <;>
          simpa [SystemAction.event, NotifierPc.notice, hact] using hstep
      · refine .unnoticed rfl (by simp [hc, NotifierPc.notice, hu]) ?_ rfl
        cases x.isActivated <;> simp [NotifierPc.notice, hu]
  | @activate c u hc =>
      by_cases hu : u = t
      · subst u
        have hview : ((s.activate L t).setNotifier c .idle).view L t =
            ((s.view L t).put (s.task t).activate).setNotice c none := by
          rw [view_setNotifier, view_activate_self hs.running]
          rfl
        refine .own ?_ (by simp [SystemAction.event]) ?_
        · rw [hview]
          exact .activate (by simp [view, hc, NotifierPc.notice])
        · rw [hview]
          exact fun e he => he
      · exact .unnoticed rfl (by simp [hc, NotifierPc.notice, hu]) rfl (view_activate_of_ne hu)
  | @nextTask e u he hu =>
      have hn : (s.executor e).stage t = none := by rw [he, ExecutePc.stage]
      by_cases hut : u = t
      · subst u
        have hsch := hs.elsewhere _ hu
        have hpos : 0 < (s.view L t).queued := by
          simpa [view, List.count_pos_iff, hsch] using hu
        exact .works rfl (view_fetched hsch) (.fetch hn hpos) rfl
      · exact .elsewhere rfl hn (by simp [ExecutePc.stage, hut]) (view_erase_of_ne hut)
  | @synchronizeStart e u he =>
      by_cases hu : u = t
      · subst u
        have hstage : (s.view L t).stage e = some .fetched := by simp [view, he, ExecutePc.stage]
        refine .works rfl ?_ (.start hstage) rfl
        rw [view_setExecutor, ExecutePc.stage, if_pos rfl]
      · exact .elsewhere rfl (by simp [he, ExecutePc.stage, hu]) (by simp [ExecutePc.stage, hu]) rfl
  | @executed e u he =>
      by_cases hu : u = t
      · subst u
        refine .executed he ?_
        rw [view_setExecutor, view_setMutex]
      · refine .elsewhere (by simp [SystemAction.event, hu]) (by simp [he, ExecutePc.stage, hu]) ?_
          (view_setMutex _ _)
        cases hg : L.group u <;> simp [Layout.finalizeExecution, hg, ExecutePc.stage, hu]
  | @finish e u group he =>
      have hn : (s.executor e).stage t = none := by rw [he, ExecutePc.stage]
      by_cases hu : u = t
      · subst u
        refine .finish he ?_
        have hn' : ((s.setTask t { s.task t with state := .finish }).executor e).stage t = none := hn
        rw [view_setExecutor, ExecutePc.stage, setStage_view hn', view_setTask_self]
      · exact .elsewhere rfl hn rfl (view_setTask_of_ne hu)
  | @isExecuted e group u members he =>
      refine .elsewhere rfl (by rw [he, ExecutePc.stage]) ?_ rfl
      cases (s.task u).isExecuted <;> rfl
  | @areAllExecuted e group he =>
      have hn : (s.executor e).stage t = none := by rw [he, ExecutePc.stage]
      cases hl : L.taskList group with
      | nil => exact .elsewhere rfl hn rfl rfl
      | cons u members =>
          by_cases hu : u = t
          · subst u
            refine .begins he hl ?_
            rw [view_setExecutor, ExecutePc.resetMembers, ExecutePc.stage, if_pos rfl]
          · exact .elsewhere rfl hn (if_neg hu) rfl
  | @resetEnter e u members he =>
      by_cases hu : u = t
      · subst u
        have hstage : (s.view L t).stage e = some (.resetting .enter) := by
          simp [view, he, ExecutePc.stage]
        refine .works rfl ?_ (.resetEnter hstage) rfl
        rw [view_setExecutor, view_setTask_self, ExecutePc.stage, if_pos rfl]
        rfl
      · exact .elsewhere rfl (by simp [he, ExecutePc.stage, hu]) (if_neg hu) (view_setTask_of_ne hu)
  | @resetInput e u i members he =>
      by_cases hu : u = t
      · subst u
        have hstage : (s.view L t).stage e = some (.resetting (.input i)) := by
          simp [view, he, ExecutePc.stage]
        refine .works rfl ?_ (.resetInput hstage) rfl
        rw [view_setExecutor, resetInput, view_setTask_self, ExecutePc.stage, if_pos rfl]
        rfl
      · exact .elsewhere rfl (by simp [he, ExecutePc.stage, hu]) (if_neg hu) (view_setTask_of_ne hu)
  | @resetActivate e u i members he =>
      by_cases hu : u = t
      · subst u
        have hstage : (s.view L t).stage e = some (.resetting (.activate i)) := by
          simp [view, he, ExecutePc.stage]
        refine .works rfl ?_ (.resetActivate hstage) rfl
        rw [view_setExecutor, view_activate_self hs.running, ExecutePc.stage, if_pos rfl]
        rfl
      · exact .elsewhere rfl (by simp [he, ExecutePc.stage, hu]) (if_neg hu) (view_activate_of_ne hu)
  | @resetFinish e u members he =>
      by_cases hu : u = t
      · subst u
        refine .resetFinish he ?_
        rw [view_setExecutor, view_resetFinish_self hs.running]
      · have hn : (s.executor e).stage t = none := by simp [he, ExecutePc.stage, hu]
        cases members with
        | nil => exact .elsewhere rfl hn rfl (view_resetFinish_of_ne hu)
        | cons w members =>
            by_cases hw : w = t
            · subst w
              refine .next hu he ?_
              rw [view_setExecutor, view_resetFinish_of_ne hu, ExecutePc.resetMembers,
                ExecutePc.stage, if_pos rfl]
            · exact .elsewhere rfl hn (if_neg hw) (view_resetFinish_of_ne hu)
  | @leave e he => exact .elsewhere rfl (by rw [he, ExecutePc.stage]) rfl (view_setMutex _ _)

/-- Every step of the system is a step of the view of each task without group. -/
theorem step_view (hL : L.Ungrouped t) (hs : s.Apart L t) (h : Step L s a s') :
    (s.view L t).Step (a.event t) (s'.view L t) := by
  cases step_moved ⟨hs.running, hs.elsewhere⟩ h with
  | own hstep _ _ => exact hstep
  | @executed e he hview =>
      have hst : (s.view L t).stage e = some .executing := by simp [view, he, ExecutePc.stage]
      rw [hview, Layout.finalizeExecution, hL.group]
      simpa [SystemAction.event, ExecutePc.stage] using TaskView.Step.executed hst
  | finish he _ => exact absurd rfl (hs.finishing _ _ _ he)
  | begins _ hlist _ => exact absurd (hlist ▸ List.mem_cons_self) (hL.taskList _)
  | next _ he _ => exact absurd List.mem_cons_self (hs.members _ _ _ _ he)
  | @resetFinish e members he hview =>
      have hst : (s.view L t).stage e = some (.resetting .finish) := by
        simp [view, he, ExecutePc.stage]
      rw [hview, stage_resetMembers (hs.members _ _ _ _ he)]
      exact .resetFinish hst

end System

end TaskingFramework
