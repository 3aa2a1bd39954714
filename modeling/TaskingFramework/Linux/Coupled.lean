import TaskingFramework.Linux.Runtime

/-!
# The two sides of the runtime

In every run the tasks and the threads agree on the run queue, an executor that has a task is inside
`execute` on the side of the threads, and an executor that notifies an input does so from a task or
an event. A run of the runtime is a run of the tasks and a run of the threads.
-/

set_option linter.unusedSectionVars false

namespace TaskingFramework

open Foundation

namespace ExecutionModel

variable {n : Nat} {τ κ : Type*} [DecidableEq τ] [DecidableEq κ] {s s' : ExecutionModel n τ κ}
  {a : ExecutionAction n τ κ} {e : Fin n}

private theorem pc_step (h : Step s a s') (hends : a ≠ .executed e ∧ a ≠ .handled e)
    (hpc : s.pc e = .handling ∨ ∃ t, s.pc e = .executing t) : s'.pc e = s.pc e := by
  have hstay : ∀ {r : ExecutionModel n τ κ} {f : Fin n} {pc : ExecutorPc τ}, r.pc = s.pc → f ≠ e →
      (r.setPc f pc).pc e = s.pc e := by
    intro r f pc hr hf
    simp [setPc, hf.symm, hr]
  have hne : ∀ f, s.pc f ≠ .handling → (∀ t, s.pc f ≠ .executing t) → f ≠ e := by
    rintro f hhandling hexecuting rfl
    rcases hpc with hpc | ⟨t, hpc⟩
    · exact hhandling hpc
    · exact hexecuting t hpc
  cases step_acts h with
  | queue | request | choose | drop | wakeUp | waitUntilEmpty | resumeWaiter => rfl
  | wait hf | isPending hf | noTask hf | enlist hf =>
      exact hstay rfl (hne _ (by simp [hf]) (by simp [hf]))
  | nextTask hf => exact hstay rfl (hne _ (by simp [hf]) (by simp [hf]))
  | resume hf => exact hstay rfl (hne _ (by simp [hf]) (by simp [hf]))
  | handled => exact hstay rfl fun hf => hends.2 (hf ▸ rfl)
  | executed => exact hstay rfl fun hf => hends.1 (hf ▸ rfl)

private theorem runQueue_step (h : Step s a s') (hqueue : ∀ c t, a ≠ .queue c t)
    (hnext : ∀ f t, a ≠ .nextTask f (some t)) :
    s'.runQueue = s.runQueue := by
  cases step_acts h with
  | queue => exact absurd rfl (hqueue _ _)
  | nextTask => exact absurd rfl (hnext _ _)
  | _ => rfl

end ExecutionModel

namespace System

variable {τ σ ε γ ν : Type*} [DecidableEq τ] [DecidableEq σ] [DecidableEq ε] [DecidableEq γ]
  [DecidableEq ν]
  {L : Layout τ σ ε γ} {s s' : System τ σ ε γ ν} {a : SystemAction τ ε ν} {e : ε} {v : ν}

private theorem step_idle (h : Step L s a s') (he : s.executor e = .idle)
    (ha : ∀ t, a ≠ .nextTask e t) :
    s'.executor e = .idle := by
  rcases step_executor h e with heq | ⟨hact, _⟩
  · exact heq.trans he
  · cases a <;> simp only [SystemAction.executor, Option.some.injEq, reduceCtorEq] at hact <;>
      subst hact <;> simp [Step, step, he] at h ha

private theorem step_notifier (h : Step L s a s') (hv : s'.notifier v ≠ .idle) :
    s.notifier v ≠ .idle ∨ ∃ t i, a = .notify v t i := by
  have hchange : ∀ {r : System τ σ ε γ ν} {w : ν} {pc : NotifierPc τ}, r.notifier = s.notifier →
      (r.setNotifier w pc).notifier v ≠ .idle → v = w ∨ s.notifier v ≠ .idle := by
    intro r w pc hr hne
    by_cases hw : v = w
    · exact Or.inl hw
    · exact Or.inr (by simpa [setNotifier, hw, hr] using hne)
  cases step_acts h with
  | @notify w t i x hw hx =>
      rcases hchange rfl hv with rfl | hv
      · exact Or.inr ⟨t, i, rfl⟩
      · exact Or.inl hv
  | check hw =>
      rcases hchange rfl hv with rfl | hv
      · exact Or.inl (by simp [hw])
      · exact Or.inl hv
  | activate hw =>
      rcases hchange activate_notifier hv with rfl | hv
      · exact Or.inl (by simp [hw])
      · exact Or.inl hv
  | nextTask | synchronizeStart | executed | finish | isExecuted | areAllExecuted | resetEnter
  | resetInput | leave =>
      exact Or.inl hv
  | resetActivate => exact Or.inl (by simpa [setExecutor] using hv)
  | resetFinish => exact Or.inl (by simpa [setExecutor] using hv)

end System

namespace Runtime

variable {n : Nat} {τ γ κ : Type*} [DecidableEq τ] [DecidableEq γ] [DecidableEq κ]
  {L : Layout τ Unit (Fin n) γ}
  {inputs : τ → InputArray} {s s' : Runtime n τ γ κ} {action : RuntimeAction n τ κ}
  {acts : List (RuntimeAction n τ κ)} {a : SystemAction τ (Fin n) (κ ⊕ Fin n)} {e : Fin n}

structure Coupled (s : Runtime n τ γ κ) : Prop where
  runQueue : s.model.runQueue = s.system.runQueue ()
  busy : ∀ e, s.system.executor e ≠ .idle → ∃ t, s.model.pc e = .executing t
  notifying : ∀ e, s.system.notifier (.inr e) ≠ .idle → s.MayNotify (.inr e)

theorem Step.task (h : Step L s action s') :
    match action.task with
    | some a => s.system.Step L a s'.system
    | none => s'.system = s.system := by
  cases h with
  | system _ _ hstep | perform _ _ _ hstep | nextTask hstep => exact hstep
  | thread => rfl

/-- The step of the threads, which hears what the step of the runtime hears. -/
theorem Step.threads (h : Step L s action s') (hheard : s.Heard action) :
    s'.model = s.model ∨ ∃ b, s.model.Step b s'.model ∧ s.model.Heard b := by
  cases h with
  | system => exact Or.inl rfl
  | perform _ _ _ _ hqueue => exact Or.inr ⟨_, hqueue, trivial⟩
  | nextTask _ hnext => exact Or.inr ⟨_, hnext, trivial⟩
  | thread _ hstep => exact Or.inr ⟨_, hstep, hheard⟩

theorem run_task (hsystem : s.system = System.started L inputs [()]) (h : Run (Step L) s acts s') :
    Run (System.Step L) (System.started L inputs [()])
        (acts.filterMap RuntimeAction.task) s'.system := by
  induction h with
  | start => exact hsystem ▸ .start
  | @next l r action r' _ hstep ih =>
      have htask := hstep.task
      rw [List.filterMap_append]
      cases ha : action.task with
      | some a =>
          rw [ha] at htask
          rw [List.filterMap_cons_some ha, List.filterMap_nil]
          exact ih.next htask
      | none =>
          rw [ha] at htask
          rw [List.filterMap_cons_none ha, List.filterMap_nil, List.append_nil, htask]
          exact ih

theorem Coupled.mayNotify (h : s.Coupled) (he : s.system.notifier (.inr e) ≠ .idle) :
    s.model.mayActivate (.inr e) = true := by
  rcases h.notifying e he with hpc | ⟨t, ht⟩
  · simp [ExecutionModel.mayActivate, hpc]
  · obtain ⟨u, hpc⟩ := h.busy e (by simp [ht])
    simp [ExecutionModel.mayActivate, hpc]

private theorem Coupled.system (h : s.Coupled) (hallows : s.Allows a)
    {system : System τ Unit (Fin n) γ (κ ⊕ Fin n)}
    (hstep : s.system.Step L a system) :
    (∀ e, system.executor e ≠ .idle → ∃ t, s.model.pc e = .executing t) ∧
      ∀ e, system.notifier (.inr e) ≠ .idle →
          (⟨s.model, system⟩ : Runtime n τ γ κ).MayNotify (.inr e) := by
  have hnext : ∀ e t, a ≠ .nextTask e t := by
    rintro e t rfl
    exact hallows
  constructor
  · intro e he
    exact h.busy e fun hidle => he (System.step_idle hstep hidle (hnext e))
  · intro e he
    have hbefore : s.MayNotify (.inr e) ∧ ∀ t, a ≠ .executed e t := by
      rcases System.step_notifier hstep he with hnotifier | ⟨t, i, rfl⟩
      · refine ⟨h.notifying e hnotifier, ?_⟩
        rintro t rfl
        exact hnotifier hallows.2
      · exact ⟨hallows.2, by simp⟩
    rcases hbefore.1 with hpc | ⟨t, ht⟩
    · exact Or.inl hpc
    · rcases System.step_executing hstep ht with hafter | hact
      · exact Or.inr ⟨t, hafter⟩
      · exact absurd hact (hbefore.2 t)

theorem Coupled.step (h : s.Coupled) (hstep : Step L s action s') :
    s'.Coupled := by
  cases hstep with
  | @system a system hallows hqueues hsystem =>
      have hnext : ∀ e t, a ≠ .nextTask e t := by
        rintro e t rfl
        exact hallows
      have hqueue := System.runQueue_step hsystem hnext
      rw [hqueues, Option.elim_none] at hqueue
      obtain ⟨hbusy, hnotifying⟩ := h.system hallows hsystem
      exact ⟨h.runQueue.trans (congrFun hqueue ()).symm, hbusy, hnotifying⟩
  | @perform a v t model system hallows hqueues hperformer hsystem hmodel =>
      have hnext : ∀ e t, a ≠ .nextTask e t := by
        rintro e t rfl
        exact hallows
      have hqueue := System.runQueue_step hsystem hnext
      rw [hqueues, Option.elim_some] at hqueue
      obtain ⟨hbusy, hnotifying⟩ := h.system hallows hsystem
      cases ExecutionModel.step_acts hmodel with
      | queue =>
          refine ⟨?_, hbusy, hnotifying⟩
          show s.model.runQueue ++ [t] = system.runQueue ()
          rw [hqueue, h.runQueue]
          change _ = Function.update s.system.runQueue () (s.system.runQueue () ++ [t]) ()
          rw [Function.update_self]
  | @nextTask e t model system hsystem hmodel =>
      cases System.step_acts hsystem with
      | nextTask he _ =>
          cases ExecutionModel.step_acts hmodel with
          | nextTask hpc _ =>
              refine ⟨congrArg (List.erase · t) h.runQueue, ?_, ?_⟩
              · intro f hf
                by_cases hfe : f = e
                · exact ⟨t, by simp [ExecutionModel.setPc, hfe]⟩
                · obtain ⟨u, hu⟩ := h.busy f (by simpa [System.setExecutor, System.setRunQueue,
                    hfe] using hf)
                  exact ⟨u, by simpa [ExecutionModel.setPc, hfe] using hu⟩
              · intro f hf
                have hmay := h.notifying f hf
                have hfe : f ≠ e := by
                  rintro rfl
                  rcases hmay with hmay | ⟨u, hu⟩
                  · simp [hpc] at hmay
                  · simp [he] at hu
                simpa [MayNotify, ExecutionModel.setPc, System.setExecutor, System.setRunQueue,
                  hfe] using hmay
  | @thread b model hthreads hmodel =>
      have hstays : ∀ e, b ≠ .executed e → b ≠ .handled e →
          (s.model.pc e = .handling ∨ ∃ t, s.model.pc e = .executing t) → model.pc e = s.model.pc e :=
        fun e hexecuted hhandled => ExecutionModel.pc_step hmodel ⟨hexecuted, hhandled⟩
      have hrunQueue : model.runQueue = s.model.runQueue := by
        apply ExecutionModel.runQueue_step hmodel
        · rintro c t rfl
          exact hthreads
        · rintro f t rfl
          exact hthreads
      refine ⟨hrunQueue.trans h.runQueue, ?_, ?_⟩
      · intro e he
        obtain ⟨t, ht⟩ := h.busy e he
        have hexecuted : b ≠ .executed e := by
          rintro rfl
          exact he hthreads
        have hhandled : b ≠ .handled e := by
          rintro rfl
          cases ExecutionModel.step_acts hmodel with
          | handled hpc => simp [ht] at hpc
        exact ⟨t, (hstays e hexecuted hhandled (Or.inr ⟨t, ht⟩)).trans ht⟩
      · intro e he
        rcases h.notifying e he with hhandling | ⟨t, ht⟩
        · have hexecuted : b ≠ .executed e := by
            rintro rfl
            cases ExecutionModel.step_acts hmodel with
            | executed hpc => simp [hhandling] at hpc
          have hhandled : b ≠ .handled e := by
            rintro rfl
            exact he hthreads
          exact Or.inl ((hstays e hexecuted hhandled (Or.inl hhandling)).trans hhandling)
        · exact Or.inr ⟨t, ht⟩

end Runtime

end TaskingFramework
