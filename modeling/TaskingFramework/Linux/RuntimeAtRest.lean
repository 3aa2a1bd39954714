import TaskingFramework.Linux.Coupled

/-!
# The runtime comes to rest

When no input is notified and no event is pending, the tasks and the threads only have a bounded
number of steps left. In a run that drops no request they end with all executors in their wait and
an empty run queue, and a task with synchronous inputs has been executed as often as its
notifications allow.
-/

set_option linter.unusedSectionVars false

namespace TaskingFramework

open Foundation

namespace Runtime

variable {n : Nat} {τ γ κ : Type*} [DecidableEq τ] [DecidableEq γ] [DecidableEq κ]
  {L : Layout τ Unit (Fin n) γ}
  {inputs : τ → InputArray} {s s' s₀ : Runtime n τ γ κ} {action : RuntimeAction n τ κ}
  {acts later : List (RuntimeAction n τ κ)} {a : SystemAction τ (Fin n) (κ ⊕ Fin n)} {e : Fin n} {t : τ}

section Work

variable [Fintype τ] [Fintype κ]

/-- An upper bound of the steps that are left: a task that is queued wakes an executor up. -/
def work (L : Layout τ Unit (Fin n) γ) (len : τ → Nat) (s : Runtime n τ γ κ) : Nat :=
  12 * s.system.work L len + s.model.load

private theorem work_lt {len : τ → Nat} (h : s.system.Sized len) (hstep : InternalStep L s action s') :
    s'.work L len < s.work L len := by
  obtain ⟨hstep, _, hinternal⟩ := hstep
  cases hstep with
  | system _ _ hsystem =>
      have hlt := System.work_lt h ⟨hsystem, hinternal⟩
      simp only [work]
      omega
  | perform _ _ _ hsystem hqueue =>
      have hlt := System.work_lt h ⟨hsystem, hinternal⟩
      have hload := ExecutionModel.load_queue hqueue
      simp only [work]
      omega
  | nextTask hsystem hnext =>
      have hlt := System.work_lt h ⟨hsystem, by simp⟩
      have hload := ExecutionModel.load_lt (a := .nextTask _ (some _)) trivial hnext
      simp only [work]
      omega
  | thread _ hmodel =>
      have hload := ExecutionModel.load_lt hinternal hmodel
      exact Nat.add_lt_add_left hload _

end Work

private theorem Coupled.performs (h : s.Coupled) (hidle : ∀ v, s.model.caller v = .idle)
    (hallows : s.Allows a)
    {system : System τ Unit (Fin n) γ (κ ⊕ Fin n)} (hstep : s.system.Step L a system) :
    ∃ s', Step L s (.system a) s' := by
  cases hqueues : s.system.queues L a with
  | none => exact ⟨_, .system hallows hqueues hstep⟩
  | some t =>
      obtain ⟨v, hperformer, hmay⟩ : ∃ v, a.performer = some v ∧ s.model.mayActivate v = true := by
        cases a with
        | activate v =>
            refine ⟨v, rfl, ?_⟩
            cases v with
            | inl c => rfl
            | inr e =>
                apply h.mayNotify
                intro hnone
                simp [System.queues, hnone] at hqueues
        | reset e =>
            refine ⟨.inr e, rfl, ?_⟩
            obtain ⟨u, hu⟩ := h.busy e fun hnone => by simp [System.queues, hnone] at hqueues
            simp [ExecutionModel.mayActivate, hu]
        | notify | check | nextTask | synchronizeStart | executed | finish | isExecuted | leave =>
            cases hqueues
      exact ⟨_, .perform hallows hqueues hperformer hstep (if_pos ⟨hidle v, hmay⟩)⟩

private theorem Coupled.atRest (h : s.Coupled) (hinv : s.model.Inv) (halert : s.model.Alert)
    (horderly : s.system.Orderly L inputs) (hn : 0 < n) (hrest : AtRest (InternalStep L) s) :
    s.model.runQueue = [] ∧ (∀ e, s.model.pc e = .waiting ∧ e ∈ s.model.freeExecutors) ∧
      (∀ v, s.model.caller v = .idle ∧ s.system.notifier v = .idle) ∧
          ∀ e, s.system.executor e = .idle := by
  have hthread : ∀ b, s.Threads b → s.model.Heard b → ExecutionModel.Internal b →
      s.model.step b = none := by
    intro b hb hheard hinternal
    refine Option.eq_none_iff_forall_ne_some.mpr fun model hmodel => ?_
    exact hrest (.thread b) _ ⟨.thread hb hmodel, hheard, hinternal⟩
  obtain ⟨_, hidle⟩ := ExecutionModel.idle_of_stuck hn
    (fun e => hthread (.enlist e) trivial trivial trivial)
    (fun e => hthread (.wait e) trivial trivial trivial)
    (fun c hc => hthread (.signal c) trivial hc trivial)
    (fun c => hthread (.wakeUp c) trivial trivial trivial)
  have hsystem : ∀ a, s.Allows a → (∀ v t i, a ≠ .notify v t i) → s.system.step L a = none := by
    intro a hallows hinternal
    refine Option.eq_none_iff_forall_ne_some.mpr fun system hstep => ?_
    obtain ⟨s', hs'⟩ := h.performs hidle hallows hstep
    exact hrest (.system a) s' ⟨hs', trivial, hinternal⟩
  have hnotifier : ∀ v, s.system.notifier v = .idle := by
    intro v
    exact horderly.notifier_idle (hsystem (.check v) (hidle v) (by simp))
      (hsystem (.activate v) (hidle v) (by simp))
  have hexecutor : ∀ e, s.system.executor e = .idle := by
    apply horderly.executor_idle
    intro a hexecutor hnext
    apply hsystem
    · cases a with
      | notify | check | activate => exact absurd rfl hexecutor
      | nextTask e t => exact absurd rfl (hnext e t)
      | executed e t => exact ⟨hidle _, hnotifier _⟩
      | synchronizeStart | finish | isExecuted | reset | leave => exact hidle _
    · rintro v t i rfl
      exact hexecutor rfl
  have hmodel : AtRest (fun m b m' => ExecutionModel.Step m b m' ∧ m.Heard b ∧
      ExecutionModel.Internal b) s.model := by
    rintro b model ⟨hstep, hheard, hinternal⟩
    by_cases hfetch : ∃ e t, b = .nextTask e (some t)
    · -- an executor in front of `nextTask` has no task, and both sides have the same run queue
      obtain ⟨e, t, rfl⟩ := hfetch
      cases ExecutionModel.step_acts hstep with
      | nextTask _ hq =>
          have hmem : t ∈ s.system.runQueue () := h.runQueue ▸ hq
          have hnext : s.system.Step L (.nextTask e t) _ := if_pos ⟨hexecutor e, hmem⟩
          exact hrest _ _ ⟨.nextTask hnext hstep, trivial, trivial⟩
    · have hthreads : s.Threads b := by
        cases b with
        | queue => exact hinternal.elim
        | nextTask e task =>
            cases task with
            | none => trivial
            | some t => exact absurd ⟨e, t, rfl⟩ hfetch
        | executed e => exact hexecutor e
        | handled e => exact hnotifier _
        | request | signal | wakeUp | wait | resume | isPending | enlist | waitUntilEmpty
        | resumeWaiter => trivial
      have hstep : s.model.step b = some model := hstep
      rw [hthread b hthreads hheard hinternal] at hstep
      cases hstep
  obtain ⟨hqueue, _, hwaiting⟩ := hinv.atRest halert hn hmodel
  exact ⟨hqueue, hwaiting, fun v => ⟨hidle v, hnotifier v⟩, hexecutor⟩

/-- What holds on both sides in every run that drops no request. -/
structure Sound (L : Layout τ Unit (Fin n) γ) (inputs : τ → InputArray) (s : Runtime n τ γ κ) :
    Prop where
  coupled : s.Coupled
  inv : s.model.Inv
  alert : s.model.Alert
  orderly : s.system.Orderly L inputs

private theorem Opened.sound (h : s.Opened L inputs) : s.Sound L inputs := by
  obtain ⟨acts, hmodel, _⟩ := h.model
  have hstill : s.system.Still inputs := h.system ▸ System.started_still [()]
  have halert : s.model.Parks ∧ s.model.Alert := by
    apply hmodel.invariant (I := fun m => m.Parks ∧ m.Alert) ⟨ExecutionModel.inv_init.parks, nofun⟩
    intro m b m' hm hstep
    exact ⟨hm.1.step hstep.1, hm.2.step hm.1 hstep.1⟩
  refine ⟨⟨h.runQueue, ?_, ?_⟩, ExecutionModel.run_inv hmodel, halert.2, hstill.orderly⟩
  · intro e he
    exact absurd (hstill.executor e) he
  · intro e he
    exact absurd (hstill.notifier _) he

private theorem Sound.step (h : s.Sound L inputs) (hstep : Step L s action s')
    (hheard : s.Heard action) :
    s'.Sound L inputs := by
  have horderly : s'.system.Orderly L inputs := by
    have htask := hstep.task
    cases ha : action.task with
    | some a =>
        rw [ha] at htask
        exact h.orderly.step htask
    | none =>
        rw [ha] at htask
        exact htask ▸ h.orderly
  rcases hstep.threads hheard with hmodel | ⟨b, hmodel, hheard⟩
  · exact ⟨h.coupled.step hstep, hmodel ▸ h.inv, hmodel ▸ h.alert, horderly⟩
  · exact ⟨h.coupled.step hstep, ExecutionModel.inv_step h.inv hheard hmodel,
      h.alert.step h.inv.parks hmodel,
      horderly⟩

private theorem notifications_internal (h : Run (InternalStep L) s later s') (i : Nat) :
    System.notifications t i ((acts ++ later).filterMap RuntimeAction.task) =
      System.notifications t i (acts.filterMap RuntimeAction.task) := by
  induction h with
  | start => rw [List.append_nil]
  | @next l r action r' _ hstep ih =>
      rw [← List.append_assoc, List.filterMap_append]
      cases ha : action.task with
      | none => rw [List.filterMap_cons_none ha, List.filterMap_nil, List.append_nil, ih]
      | some a =>
          rw [List.filterMap_cons_some ha, List.filterMap_nil, System.notifications_snoc, ih]
          have hnotify : a.event t ≠ .notified i := by
            intro hevent
            obtain ⟨v, rfl⟩ := System.event_notified hevent
            cases action with
            | system b =>
                obtain rfl := Option.some.inj ha
                exact hstep.2.2 v t i rfl
            | nextTask | thread => cases ha
          rw [if_neg hnotify, Nat.add_zero]

/-- Whatever the tasks of a scheduler on Linux have been notified of comes to an end: in a run that
drops no request the steps that bring no new work are bounded and lead to rest. At rest every
executor is in the list of free executors and waits, no thread is inside `signal` or `notifyInput`,
the run queue is empty, and each task with synchronous inputs has been executed as often as its
inputs have been notified, in bunches of their thresholds. -/
theorem run_sleeps [Fintype τ] [Fintype κ] (hn : 0 < n) (hbunched : ∀ t, (inputs t).Bunched)
    (hopened : s₀.Opened L inputs) (hrun : Run (fun s a s' => Step L s a s' ∧ s.Heard a) s₀ acts s)
    (hlater : Run (InternalStep L) s later s') :
    later.length + s'.work L (fun t => (inputs t).inputs.length) ≤
      s.work L (fun t => (inputs t).inputs.length) ∧
      (∃ more u, Run (InternalStep L) s' more u ∧ AtRest (InternalStep L) u) ∧
      (AtRest (InternalStep L) s' →
        (∀ e, s'.model.pc e = .waiting ∧ e ∈ s'.model.freeExecutors) ∧
        (∀ v, s'.model.caller v = .idle ∧ s'.system.notifier v = .idle) ∧ s'.model.runQueue = [] ∧
        ∀ t m k, L.Ungrouped t → 0 < m → (∀ i < m, 0 < k i) → inputs t = .configured m k →
          (∀ i < m, System.notifications t i (acts.filterMap RuntimeAction.task) < 2 ^ 32) →
          IsLeast {x | ∃ i < m, x = System.notifications t i (acts.filterMap RuntimeAction.task) / k i}
            (System.executions t ((acts ++ later).filterMap RuntimeAction.task))) := by
  have hlowers : Lowers (InternalStep L) (fun s : Runtime n τ γ κ => s.Sound L inputs)
      fun s => s.work L fun t => (inputs t).inputs.length :=
    ⟨fun h hs => h.step hs.1 hs.2.1, fun h hs => work_lt (h.orderly.configured.sized hbunched) hs⟩
  have hsound : s.Sound L inputs := hrun.invariant hopened.sound fun _ _ _ h hs => h.step hs.1 hs.2
  have hsound' : s'.Sound L inputs := hlater.invariant hsound fun _ _ _ h hs => h.step hs.1 hs.2.1
  refine ⟨hlowers.length_add_le hsound hlater, hlowers.exists_atRest hsound', fun hrest => ?_⟩
  obtain ⟨hqueue, hwaiting, hidle, hexecutor⟩ :=
    hsound'.coupled.atRest hsound'.inv hsound'.alert hsound'.orderly hn hrest
  refine ⟨hwaiting, hidle, hqueue, fun t m k hL hm hk hinputs hN => ?_⟩
  have htasks := run_task hopened.system
    ((hrun.mono fun _ _ _ hs => hs.1).append (hlater.mono fun _ _ _ hs => hs.1))
  have hsame : ∀ i, System.notifications t i ((acts ++ later).filterMap RuntimeAction.task) =
      System.notifications t i (acts.filterMap RuntimeAction.task) := notifications_internal hlater
  obtain ⟨_, hphase⟩ := System.run_phase hL hm hk hinputs List.mem_cons_self htasks fun i hi => by
    rw [hsame]
    exact hN i hi
  have hquiet : s'.system.Quiet L t := by
    refine ⟨fun v => ?_, fun e => ?_, ?_⟩
    · rw [(hidle v).2]
      rfl
    · rw [hexecutor e]
      rfl
    · show t ∉ s'.system.runQueue ()
      rw [← hsound'.coupled.runQueue, hqueue]
      exact List.not_mem_nil
  have hnot := (hphase.quiet (List.count_eq_zero_of_not_mem hquiet.queue) hquiet.stage hquiet.notice).2
  have hleast := isLeast_bunches hk (fun i hi => hphase.bunches_le hi) hnot
  simpa only [hsame] using hleast

private theorem mem_unit (task scheduler : Unit) : task ∈ [()] ↔ () = scheduler :=
  ⟨fun _ => rfl, fun _ => List.mem_singleton_self _⟩

/-- Two executors and one task. -/
def duo : Layout Unit Unit (Fin 2) Unit where
  associatedScheduler _ := ()
  associatedTasks _ := [()]
  mem_associatedTasks := mem_unit
  scheduler _ := ()
  group _ := none
  taskList _ := []

/-- Three notifications of an input with threshold 2, the last one by another thread, and then
nothing but the steps that are left. -/
theorem run_sleeps_three :
    ∃ (s₀ s s' : Runtime 2 Unit Unit Bool) (acts later : List (RuntimeAction 2 Unit Bool)),
    s₀.Opened duo (fun _ => .configured 1 fun _ => 2) ∧
      Run (fun s a s' => Step duo s a s' ∧ s.Heard a) s₀ acts s ∧ Run (InternalStep duo) s later s' ∧
      System.notifications () 0 (acts.filterMap RuntimeAction.task) = 3 ∧
      System.executions () ((acts ++ later).filterMap RuntimeAction.task) = 1 ∧
      ∀ e, s'.model.pc e = .waiting ∧ e ∈ s'.model.freeExecutors := by
  let s₀ : Runtime 2 Unit Unit Bool :=
    ⟨ExecutionModel.init, System.started duo (fun _ => .configured 1 fun _ => 2) [()]⟩
  have hopened : s₀.Opened duo fun _ => .configured 1 fun _ => 2 := ⟨rfl, ⟨[], .start, rfl⟩, rfl⟩
  have hbunched : ∀ t : Unit, InputArray.Bunched (.configured 1 fun _ => 2) := by
    simp [InputArray.Bunched, InputArray.configured, Input.configure, Input.init]
  have hstart : Run (fun s a s' => Step duo s a s' ∧ s.Heard a) s₀ [] s₀ := .start
  have htwice := ((hstart.next ⟨.system (a := .notify (.inl false) () 0) ⟨rfl, trivial⟩ rfl rfl,
    trivial⟩).next
    ⟨.system (a := .check (.inl false)) rfl rfl rfl, trivial⟩).next
    ⟨.system (a := .notify (.inl false) () 0) ⟨rfl, trivial⟩ rfl rfl, trivial⟩
  have hrun := htwice.next ⟨.system (a := .notify (.inl true) () 0) ⟨rfl, trivial⟩ rfl rfl, trivial⟩
  obtain ⟨later, s', hlater, hrest⟩ := (run_sleeps (by decide) hbunched hopened hrun .start).2.1
  obtain ⟨hwaiting, _, _, htask⟩ := (run_sleeps (by decide) hbunched hopened hrun hlater).2.2 hrest
  obtain ⟨⟨i, hi, hleast⟩, _⟩ :=
    htask () 1 (fun _ => 2) ⟨rfl, by simp [duo]⟩ (by decide) (by decide) rfl
    fun i hi => by
      obtain rfl := Nat.lt_one_iff.mp hi
      decide
  obtain rfl := Nat.lt_one_iff.mp hi
  exact ⟨s₀, _, s', _, later, hopened, hrun, hlater, rfl, hleast, hwaiting⟩

end Runtime

end TaskingFramework
