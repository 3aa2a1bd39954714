import TaskingFramework.Task.Moves
import TaskingFramework.Task.Phase
import Mathlib.Order.Bounds.Basic

/-!
# Notifications and executions

Whatever the order of the threads, a task with synchronous inputs is executed once for every bunch
of notifications that all its inputs have received.
-/

set_option linter.unusedSectionVars false

namespace TaskingFramework

open Foundation

/-- Inputs after `configure`, before the first notification. -/
def InputArray.configured (n : Nat) (k : Nat → Nat) : InputArray where
  inputs := (List.range n).map fun i => Input.init.configure (k i) false
  condition := none

private theorem InputArray.configured_eq {n : Nat} {k : Nat → Nat} (hk : ∀ i < n, 0 < k i) :
    configured n k = synchronous n k fun _ => 0 := by
  have h : ∀ i ∈ List.range n, Input.init.configure (k i) false = Input.synchronous (k i) 0 := by
    intro i hi
    exact Input.configure_init (hk i (List.mem_range.mp hi))
  rw [configured, synchronous, List.map_congr_left h]

theorem isLeast_bunches {n : Nat} {k N : Nat → Nat} {X : Nat} (hk : ∀ i < n, 0 < k i)
    (hle : ∀ i < n, k i * X ≤ N i) (hnot : ¬ Enough n k N fun _ => X) :
    IsLeast {x | ∃ i < n, x = N i / k i} X := by
  constructor
  · simp only [Enough, not_forall] at hnot
    rcases hnot with ⟨i, hi, hlt⟩
    refine ⟨i, hi, (Nat.div_eq_of_lt_le ?_ ?_).symm⟩
    · rw [Nat.mul_comm]
      exact hle i hi
    · rw [Nat.mul_comm]
      omega
  · intro x hx
    rcases hx with ⟨i, hi, rfl⟩
    rw [Nat.le_div_iff_mul_le (hk i hi), Nat.mul_comm]
    exact hle i hi

namespace System

variable {τ σ ε γ ν : Type*} [DecidableEq τ] [DecidableEq σ] [DecidableEq ε] [DecidableEq γ]
  [DecidableEq ν]

/-- `start(true)` on some schedulers, before the first notification. -/
def started (L : Layout τ σ ε γ) (inputs : τ → InputArray) (schedulers : List σ) :
    System τ σ ε γ ν :=
  schedulers.foldl (fun s scheduler => s.start L true scheduler) (constructed inputs)

/-- Notifications of input `i` of the task in a history. -/
def notifications (t : τ) (i : Nat) (acts : List (SystemAction τ ε ν)) : Nat :=
  acts.countP fun a => a.event t = .notified i

/-- Completed executions of the task in a history. -/
def executions (t : τ) (acts : List (SystemAction τ ε ν)) : Nat :=
  acts.countP fun a => a.event t = .executed

/-- The executor has fetched the task and not yet reset it. -/
def Executes (s : System τ σ ε γ ν) (e : ε) (t : τ) : Prop := (s.executor e).stage t ≠ none

/-- No thread has anything to do for the task. -/
structure Quiet (L : Layout τ σ ε γ) (t : τ) (s : System τ σ ε γ ν) : Prop where
  notice : ∀ c, (s.notifier c).notice t = none
  stage : ∀ e, (s.executor e).stage t = none
  queue : t ∉ s.runQueue (L.associatedScheduler t)

section Start

variable {L : Layout τ σ ε γ} {t u : τ} {n : Nat} {k : Nat → Nat} {state : TaskState}
  {s : System τ σ ε γ ν}

/-- Before the first notification of the task. -/
structure Unnotified (t : τ) (task : TaskImpl) (s : System τ σ ε γ ν) : Prop where
  task : s.task t = task
  queue : ∀ scheduler, t ∉ s.runQueue scheduler
  executor : ∀ e, s.executor e = .idle
  notifier : ∀ c, s.notifier c = .idle

private theorem Unnotified.setTask_self {task task' : TaskImpl} (h : s.Unnotified t task) :
    (s.setTask t task').Unnotified t task' :=
  ⟨by simp [setTask], h.queue, h.executor, h.notifier⟩

private theorem Unnotified.setTask_of_ne {task task' : TaskImpl} (hu : u ≠ t)
    (h : s.Unnotified t task) :
    (s.setTask u task').Unnotified t task :=
  ⟨by simp [setTask, Function.update_of_ne hu.symm, h.task], h.queue, h.executor, h.notifier⟩

private theorem Unnotified.perform {task : TaskImpl} (hu : u ≠ t) (h : s.Unnotified t task) :
    (s.perform L u).Unnotified t task := by
  by_cases hr : s.running (L.associatedScheduler u) = true
  · rw [System.perform, if_pos hr]
    refine ⟨h.task, fun scheduler => ?_, h.executor, h.notifier⟩
    by_cases hs : scheduler = L.associatedScheduler u
    · simp [setRunQueue, hs, h.queue, hu.symm]
    · simp [setRunQueue, hs, h.queue]
  · rw [System.perform, if_neg hr]
    exact h

private theorem Unnotified.activate {task : TaskImpl} (hu : u ≠ t) (h : s.Unnotified t task) :
    (s.activate L u).Unnotified t task := by
  by_cases hr : (s.task u).activate.2 = true
  · rw [System.activate, if_pos hr]
    exact (h.setTask_of_ne hu).perform hu
  · rw [System.activate, if_neg hr]
    exact h.setTask_of_ne hu

private theorem Unnotified.resetFinish {task : TaskImpl} (hu : u ≠ t) (h : s.Unnotified t task) :
    (s.resetFinish L u).Unnotified t task := by
  by_cases hr : (s.task u).resetFinish.2 = true
  · rw [System.resetFinish, if_pos hr]
    exact (h.setTask_of_ne hu).perform hu
  · rw [System.resetFinish, if_neg hr]
    exact h.setTask_of_ne hu

theorem Unnotified.reset_of_ne {task : TaskImpl} (hu : u ≠ t) (h : s.Unnotified t task) :
    (s.reset L u).Unnotified t task := by
  apply Unnotified.resetFinish hu
  apply List.foldlRecOn (motive := fun s : System τ σ ε γ ν => s.Unnotified t task)
  · exact h.setTask_of_ne hu
  · intro r hr i _
    have hinput : (r.resetInput u i).1.Unnotified t task := hr.setTask_of_ne hu
    by_cases hact : (r.resetInput u i).2 = true
    · simp only [hact, if_true]
      exact hinput.activate hu
    · simp only [hact]
      exact hinput

private theorem Unnotified.reset_self (hk : ∀ i < n, 0 < k i)
    (h : s.Unnotified t ⟨state, .synchronous n k fun _ => 0⟩) :
    (s.reset L t).Unnotified t ⟨.wait, .synchronous n k fun _ => 0⟩ := by
  have hlen : (s.task t).inputs.inputs.length = n := by simp [h.task]
  have hinside : ((List.range (s.task t).inputs.inputs.length).foldl
      (fun s i =>
        let r := s.resetInput t i
        if r.2 then r.1.activate L t else r.1)
      (s.setTask t (s.task t).resetEnter)).Unnotified t
        ⟨.reset, .synchronous n k fun _ => 0⟩ := by
    rw [hlen]
    apply List.foldlRecOn
      (motive := fun s : System τ σ ε γ ν =>
        s.Unnotified t ⟨.reset, .synchronous n k fun _ => 0⟩)
    · rw [h.task]
      exact h.setTask_self
    · intro r hr i hi
      have hi := List.mem_range.mp hi
      have hki := hk i hi
      have hreset : (Input.synchronous (k i) 0).reset = (Input.synchronous (k i) 0, false) := by
        rw [Input.reset_synchronous, Nat.zero_sub, decide_eq_false (by omega)]
      have hset : (InputArray.synchronous n k fun _ => 0).set i (Input.synchronous (k i) 0) =
          .synchronous n k fun _ => 0 := by
        rw [InputArray.synchronous_set]
        exact InputArray.synchronous_congr fun j _ => by
          by_cases hj : j = i <;> simp [hj]
      have hx : (r.task t).resetInput i = (⟨.reset, .synchronous n k fun _ => 0⟩, false) := by
        rw [hr.task]
        simp only [TaskImpl.resetInput, InputArray.synchronous_getElem?, if_pos hi, hreset,
          TaskImpl.setInput, hset]
      simp only [resetInput, hx]
      exact hr.setTask_self
  have hfinish := hinside.task
  unfold reset
  simp only [System.resetFinish, hfinish, TaskImpl.resetFinish]
  exact hinside.setTask_self

theorem reset_running : (s.reset L u).running = s.running := by
  have hperform : ∀ r : System τ σ ε γ ν, (r.perform L u).running = r.running := by
    intro r
    by_cases hr : r.running (L.associatedScheduler u) = true <;> simp [perform, hr, setRunQueue]
  have hactivate : ∀ r : System τ σ ε γ ν, (r.activate L u).running = r.running := by
    intro r
    by_cases hr : (r.task u).activate.2 = true <;> simp [activate, hr, hperform, setTask]
  have hfinish : ∀ r : System τ σ ε γ ν, (r.resetFinish L u).running = r.running := by
    intro r
    by_cases hr : (r.task u).resetFinish.2 = true <;> simp [resetFinish, hr, hperform, setTask]
  rw [reset, hfinish]
  apply List.foldlRecOn (motive := fun r : System τ σ ε γ ν => r.running = s.running)
  · rfl
  · intro r hr i _
    by_cases hact : (r.resetInput u i).2 = true
    · simp only [hact, if_true, hactivate]
      exact hr
    · simp only [hact]
      exact hr

private theorem Unnotified.resets (hk : ∀ i < n, 0 < k i) (l : List τ)
    (h : s.Unnotified t ⟨state, .synchronous n k fun _ => 0⟩) :
    ∃ state', (l.foldl (reset L) s).Unnotified t ⟨state', .synchronous n k fun _ => 0⟩ ∧
      (state = .wait ∨ t ∈ l → state' = .wait) := by
  induction l generalizing s state with
  | nil => exact ⟨state, h, by simp⟩
  | cons u l ih =>
      by_cases hu : u = t
      · subst u
        rcases ih (h.reset_self hk) with ⟨state', h', hwait⟩
        exact ⟨state', h', fun _ => hwait (Or.inl rfl)⟩
      · rcases ih (h.reset_of_ne hu) with ⟨state', h', hwait⟩
        refine ⟨state', h', fun hor => hwait ?_⟩
        rcases hor with hst | hm
        · exact Or.inl hst
        · rcases List.mem_cons.mp hm with htu | hm
          · exact absurd htu.symm hu
          · exact Or.inr hm

private theorem start_running (scheduler : σ) :
    (s.start L true scheduler).running = Function.update s.running scheduler true := by
  simp only [start, if_true]
  apply List.foldlRecOn
    (motive := fun r : System τ σ ε γ ν => r.running = Function.update s.running scheduler true)
  · rfl
  · intro r hr u _
    rw [reset_running, hr]

/-- After `start(true)` of its scheduler the task waits and nothing is queued. -/
theorem started_unnotified {inputs : τ → InputArray} {schedulers : List σ} (hk : ∀ i < n, 0 < k i)
    (hinputs : inputs t = .configured n k) (hstart : L.associatedScheduler t ∈ schedulers) :
    (started L inputs schedulers : System τ σ ε γ ν).Unnotified t
        ⟨.wait, .synchronous n k fun _ => 0⟩ ∧
      (started L inputs schedulers : System τ σ ε γ ν).running (L.associatedScheduler t) = true := by
  have hrec : ∀ (l : List σ) (r : System τ σ ε γ ν) (state : TaskState),
      r.Unnotified t ⟨state, .synchronous n k fun _ => 0⟩ →
      (state = .wait ∧ r.running (L.associatedScheduler t) = true ∨
        L.associatedScheduler t ∈ l) →
      (l.foldl (fun s scheduler => s.start L true scheduler) r).Unnotified t
          ⟨.wait, .synchronous n k fun _ => 0⟩ ∧
        (l.foldl (fun s scheduler => s.start L true scheduler) r).running
          (L.associatedScheduler t) = true := by
    intro l
    induction l with
    | nil =>
        intro r state hr hor
        rcases hor with ⟨rfl, hrun⟩ | hm
        · exact ⟨hr, hrun⟩
        · simp at hm
    | cons scheduler l ih =>
        intro r state hr hor
        have hbegin : ({ r with running := Function.update r.running scheduler true } :
            System τ σ ε γ ν).Unnotified t ⟨state, .synchronous n k fun _ => 0⟩ :=
          ⟨hr.task, hr.queue, hr.executor, hr.notifier⟩
        rcases hbegin.resets (L := L) hk (L.associatedTasks scheduler) with ⟨state', hr', hwait⟩
        apply ih (r.start L true scheduler) state' hr'
        rw [start_running]
        by_cases hs : L.associatedScheduler t = scheduler
        · have hm := (L.mem_associatedTasks t scheduler).mpr hs
          exact Or.inl ⟨hwait (Or.inr hm), by simp [hs]⟩
        · rcases hor with ⟨hst, hrun⟩ | hm
          · exact Or.inl ⟨hwait (Or.inl hst), by simp [hs, hrun]⟩
          · rcases List.mem_cons.mp hm with he | hm
            · exact absurd he hs
            · exact Or.inr hm
  apply hrec schedulers (constructed inputs) .finish
  · refine ⟨?_, by simp [constructed], by simp [constructed], by simp [constructed]⟩
    simp [constructed, hinputs, InputArray.configured_eq hk]
  · exact Or.inr hstart

end Start

section Runs

variable {L : Layout τ σ ε γ} {t : τ} {inputs : τ → InputArray} {schedulers : List σ} {n : Nat}
  {k : Nat → Nat} {acts : List (SystemAction τ ε ν)} {s : System τ σ ε γ ν}

theorem notifications_snoc (i : Nat) (a : SystemAction τ ε ν) :
    notifications t i (acts ++ [a]) =
      notifications t i acts + if a.event t = .notified i then 1 else 0 := by
  simp [notifications, List.countP_append, List.countP_singleton]

theorem executions_snoc (a : SystemAction τ ε ν) :
    executions t (acts ++ [a]) = executions t acts + if a.event t = .executed then 1 else 0 := by
  simp [executions, List.countP_append, List.countP_singleton]

/-- After `start(true)` of its scheduler a task waits, and nobody deals with it. -/
theorem phase_started {n : Nat} {k : Nat → Nat} {inputs : τ → InputArray} {schedulers : List σ}
    (hi : i < n) (hk : ∀ j < n, 0 < k j) (hinputs : inputs t = .configured n k)
    (hstart : L.associatedScheduler t ∈ schedulers) :
    (started L inputs schedulers : System τ σ ε γ ν).Apart L t ∧
      Phase n k (fun _ => 0) 0 ((started L inputs schedulers : System τ σ ε γ ν).view L t) := by
  obtain ⟨hun, hrunning⟩ := started_unnotified (ε := ε) (ν := ν) hk hinputs hstart
  have hview : (started L inputs schedulers : System τ σ ε γ ν).view L t =
      ⟨⟨.wait, .synchronous n k fun _ => 0⟩, 0, nobody, fun _ => none⟩ := by
    simp only [view, hun.task, hun.executor, hun.notifier, ExecutePc.stage, NotifierPc.notice,
      List.count_eq_zero_of_not_mem (hun.queue _)]
    rfl
  refine ⟨⟨hrunning, ?_, ?_, fun scheduler ht => absurd ht (hun.queue scheduler)⟩, ?_⟩
  · simp [hun.executor]
  · simp [hun.executor]
  · rw [hview]
    refine .waiting ⟨fun _ => 0, rfl, by simp⟩ fun henough => ?_
    have hle : k i * (0 + 1) ≤ 0 := henough i hi
    have := hk i hi
    omega

/-- In every run the task is in one of the phases that its history allows. -/
theorem run_phase (hL : L.Ungrouped t) (hn : 0 < n) (hk : ∀ i < n, 0 < k i)
    (hinputs : inputs t = .configured n k) (hstart : L.associatedScheduler t ∈ schedulers)
    (hrun : Run (Step L) (started L inputs schedulers) acts s)
    (hN : ∀ i < n, notifications t i acts < 2 ^ 32) :
    s.Apart L t ∧
      Phase n k (fun i => notifications t i acts) (executions t acts) (s.view L t) := by
  have hinv : s.Apart L t ∧ ((∀ i < n, notifications t i acts < 2 ^ 32) →
      Phase n k (fun i => notifications t i acts) (executions t acts) (s.view L t)) := by
    apply hrun.invariant_history
      (I := fun acts s => s.Apart L t ∧ ((∀ i < n, notifications t i acts < 2 ^ 32) →
        Phase n k (fun i => notifications t i acts) (executions t acts) (s.view L t)))
    · obtain ⟨hapart, hphase⟩ := phase_started (ε := ε) (ν := ν) hn hk hinputs hstart
      exact ⟨hapart, fun _ => hphase⟩
    · intro acts r a r' hr hstep
      refine ⟨apart_step hL hr.1 hstep, fun hbound => ?_⟩
      simp only [notifications_snoc] at hbound ⊢
      rw [executions_snoc]
      have hbefore : ∀ i < n, notifications t i acts < 2 ^ 32 := by
        intro i hi
        have := hbound i hi
        omega
      apply (hr.2 hbefore).step hn hk (step_view hL hr.1 hstep)
      intro i hi hev
      have hi := hbound i hi
      rwa [if_pos hev] at hi
  exact ⟨hinv.1, hinv.2 hN⟩

/-- A task with synchronous inputs is never queued twice and never executed twice at once; when
nothing is left to do for it, it has been executed as often as its inputs allow, each input holds
the notifications that are left over, and the order of the threads has made no difference. -/
theorem executions_eq_min (hL : L.Ungrouped t) (hn : 0 < n) (hk : ∀ i < n, 0 < k i)
    (hinputs : inputs t = .configured n k) (hstart : L.associatedScheduler t ∈ schedulers)
    (hrun : Run (Step L) (started L inputs schedulers) acts s)
    (hN : ∀ i < n, notifications t i acts < 2 ^ 32) :
    (∀ scheduler, (s.runQueue scheduler).count t ≤ 1) ∧
      (∀ e f, s.Executes e t → s.Executes f t → e = f) ∧
      (s.Quiet L t →
        IsLeast {x | ∃ i < n, x = notifications t i acts / k i} (executions t acts) ∧
        (∀ i < n, ∃ x, (s.task t).inputs.inputs[i]? = some x ∧
          x.notifications + x.missedNotifications + k i * executions t acts =
            notifications t i acts) ∧
        ∀ (acts' : List (SystemAction τ ε ν)) (s' : System τ σ ε γ ν),
          Run (Step L) (started L inputs schedulers) acts' s' →
          (∀ i < n, notifications t i acts' = notifications t i acts) → s'.Quiet L t →
          executions t acts' = executions t acts) := by
  have hquiet : ∀ acts (s : System τ σ ε γ ν),
      Run (Step L) (started L inputs schedulers) acts s →
      (∀ i < n, notifications t i acts < 2 ^ 32) → s.Quiet L t →
      Counted n k (fun i => notifications t i acts) (fun _ => executions t acts)
          (s.task t).inputs ∧
        IsLeast {x | ∃ i < n, x = notifications t i acts / k i} (executions t acts) := by
    intro acts s hrun hN hs
    have hphase := (run_phase hL hn hk hinputs hstart hrun hN).2
    rcases hphase.quiet (List.count_eq_zero_of_not_mem hs.queue) hs.stage hs.notice
      with ⟨hc, hnot⟩
    refine ⟨hc, isLeast_bunches hk (fun i hi => ?_) hnot⟩
    rcases hc with ⟨m, _, hm⟩
    have := hm i hi
    simp only at this
    omega
  rcases run_phase hL hn hk hinputs hstart hrun hN with ⟨hapart, hphase⟩
  refine ⟨fun scheduler => ?_, hphase.exclusive.2, fun hs => ⟨(hquiet acts s hrun hN hs).2, ?_, ?_⟩⟩
  · by_cases hm : t ∈ s.runQueue scheduler
    · rw [hapart.elsewhere scheduler hm]
      exact hphase.exclusive.1
    · rw [List.count_eq_zero_of_not_mem hm]
      exact Nat.zero_le 1
  · intro i hi
    have hc := (hquiet acts s hrun hN hs).1
    have hlen : i < (s.task t).inputs.inputs.length := by rw [hc.length]; exact hi
    have hx := List.getElem?_eq_getElem hlen
    rcases hc.getElem? hx with ⟨_, m, hsync, hm⟩
    refine ⟨_, hx, ?_⟩
    rw [hsync, Input.notifications_add_missed]
    exact hm
  · intro acts' s' hrun' hsame hs'
    have hN' : ∀ i < n, notifications t i acts' < 2 ^ 32 := by
      intro i hi
      rw [hsame i hi]
      exact hN i hi
    have hset : {x | ∃ i < n, x = notifications t i acts' / k i} =
        {x | ∃ i < n, x = notifications t i acts / k i} := by
      ext x
      constructor
      · rintro ⟨i, hi, rfl⟩
        exact ⟨i, hi, by rw [hsame i hi]⟩
      · rintro ⟨i, hi, rfl⟩
        exact ⟨i, hi, by rw [hsame i hi]⟩
    have hleast := (hquiet acts' s' hrun' hN' hs').2
    rw [hset] at hleast
    exact hleast.unique (hquiet acts s hrun hN hs).2

end Runs

/-- Two inputs with threshold 2. The first one is notified a third time while the task is executed. -/
theorem executions_eq_min_twoInputs :
    ∃ (acts : List (SystemAction Unit Unit Unit)) (s : System Unit Unit Unit Unit Unit),
      Run (Step .single) (started .single (fun _ => .configured 2 fun _ => 2) [()]) acts s ∧
        s.Quiet .single () ∧ notifications () 0 acts = 3 ∧ notifications () 1 acts = 2 ∧
        executions () acts = 1 ∧
        IsLeast {x | ∃ i < 2, x = notifications () i acts / 2} (executions () acts) ∧
        ∃ x, (s.task ()).inputs.inputs[0]? = some x ∧
            x.notifications + x.missedNotifications + 2 = 3 := by
  have hrun : ∃ s, Run (Step .single)
      (started .single (fun _ => .configured 2 fun _ => 2) [()] : System Unit Unit Unit Unit Unit)
      [.notify () () 0, .check (), .notify () () 0, .check (), .activate (), .notify () () 1, .check (),
        .notify () () 1, .check (), .activate (), .nextTask () (), .synchronizeStart (),
        .notify () () 0, .executed () (), .reset (), .reset (), .reset (), .reset (), .leave ()] s ∧
        s.Quiet .single () :=
    ⟨_, run_foldlM.mpr rfl, ⟨fun _ => rfl, fun _ => rfl, List.not_mem_nil⟩⟩
  rcases hrun with ⟨s, hrun, hs⟩
  have hmin := executions_eq_min (t := ()) (n := 2) (k := fun _ => 2)
    ⟨rfl, by simp [Layout.single]⟩ (by decide) (by decide) rfl List.mem_cons_self hrun (by decide)
  obtain ⟨hleast, hleft, _⟩ := hmin.2.2 hs
  exact ⟨_, s, hrun, hs, rfl, rfl, rfl, hleast, hleft 0 (by decide)⟩

end System

end TaskingFramework
