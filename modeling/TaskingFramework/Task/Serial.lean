import TaskingFramework.Task.GroupRun

/-!
# Groups of one scheduler

The `synchronizationMutex` of a scheduler is held from the end of an execution to the end of
`finalizeExecution`. If it serialises all members of a group, the resets of the group are orderly.
-/

set_option linter.unusedSectionVars false

namespace TaskingFramework

namespace Round

variable {τ ε : Type*} [DecidableEq τ] [DecidableEq ε] {M : List τ} {r : Nat} {X C : τ → Nat}
  {q q' : Round τ ε} {event : GroupEvent τ}

/-- At most one executor works for the group. -/
def Serial (q : Round τ ε) : Prop :=
  ∀ e f, q.executor e ≠ none → q.executor f ≠ none → e = f

/-- What the executor that checks or resets the group can rely on. -/
structure Alone (M : List τ) (r : Nat) (X : τ → Nat) (q : Round τ ε) : Prop where
  checked : ∀ e rest, q.executor e = some (.checking rest) →
    ∃ before, M = before ++ rest ∧ ∀ t ∈ before, q.standing t = .finished
  even : ∀ e t rest, q.executor e = some (.resetting t rest) → ∀ u ∈ M, X u = r

theorem Alone.congr {X' : τ → Nat} (h : q.Alone M r X) (hX : ∀ t ∈ M, X t = X' t) :
    q.Alone M r X' := by
  refine ⟨h.checked, fun e t rest he u hu => ?_⟩
  rw [← hX u hu]
  exact h.even e t rest he u hu

private theorem alone_of_step {standing : τ → Standing ε} {e : ε} {pc : Option (GroupPc τ)}
    (hserial : Serial ⟨standing, Function.update q.executor e pc⟩) (hbusy : pc ≠ none)
    (hchecked : ∀ rest, pc = some (.checking rest) →
      ∃ before, M = before ++ rest ∧ ∀ t ∈ before, standing t = .finished)
    (heven : ∀ t rest, pc = some (.resetting t rest) → ∀ u ∈ M, X u = r) :
    Alone M r X ⟨standing, Function.update q.executor e pc⟩ := by
  have hself : ∀ f pc', Function.update q.executor e pc f = some pc' → pc = some pc' := by
    intro f pc' hf
    have hfe : f = e := hserial f e (by simp [hf]) (by simpa using hbusy)
    subst f
    rwa [Function.update_self] at hf
  refine ⟨fun f rest hf => hchecked rest (hself f _ hf), fun f t rest hf => ?_⟩
  exact heven t rest (hself f _ hf)

private theorem alone_of_leave {standing : τ → Standing ε} {e : ε} (hserial : q.Serial)
    (hbusy : q.executor e ≠ none) :
    Alone M r X ⟨standing, Function.update q.executor e none⟩ := by
  have hnone : ∀ f pc', Function.update q.executor e none f ≠ some pc' := by
    intro f pc' hf
    by_cases hfe : f = e
    · subst f
      simp at hf
    · rw [Function.update_of_ne hfe] at hf
      exact hfe (hserial f e (by simp [hf]) hbusy)
  exact ⟨fun f _ hf => absurd hf (hnone f _), fun f _ _ hf => absurd hf (hnone f _)⟩

theorem Alone.step (hordered : q.Ordered M r X C) (hserial : q.Serial) (hserial' : q'.Serial)
    (h : q.Alone M r X) (hs : q.Step M event q') :
    q'.Alone M (r + event.begun) fun u => X u + if event.event u = .executed then 1 else 0 := by
  cases hs with
  | own hevents =>
      apply h.congr
      intro u hu
      rw [GroupEvent.event, if_neg (hevents u hu), Nat.add_zero]
  | executed => exact alone_of_step hserial' (by simp) (by simp) (by simp)
  | finish =>
      apply alone_of_step hserial' (by simp) _ (by simp)
      intro rest hrest
      simp only [Option.some.injEq, GroupPc.checking.injEq] at hrest
      exact ⟨[], hrest, by simp⟩
  | @isExecuted e t rest answer he htrue _ =>
      cases answer with
      | false => exact alone_of_leave hserial (by simp [he])
      | true =>
          apply alone_of_step hserial' (by simp) _ (by simp)
          intro rest' hrest
          simp only [if_true, Option.some.injEq, GroupPc.checking.injEq] at hrest
          subst rest'
          obtain ⟨before, hM, hbefore⟩ := h.checked e _ he
          refine ⟨before ++ [t], by simp [hM], fun u hu => ?_⟩
          rcases List.mem_append.mp hu with hu | hu
          · exact hbefore u hu
          · obtain rfl := List.mem_singleton.mp hu
            have hmem : u ∈ M := hM ▸ List.mem_append_right _ List.mem_cons_self
            rcases htrue rfl with hst | ⟨f, hst⟩
            · exact hst
            · -- somebody resets the member, and this cannot be the executor that checks
              cases hordered.inRound with
              | collecting _ hmember =>
                  rcases (hmember u hmem).1 with ⟨_, hc⟩ | ⟨_, hc | hc⟩ <;> simp [hst] at hc
              | @resetting f' _ _ _ _ hf' =>
                  have hfe := hserial e f' (by simp [he]) (by simp [hf'])
                  simp [← hfe, he] at hf'
  | @begins e t rest he hM hall hidle =>
      apply alone_of_step hserial' (by simp) (by simp)
      intro _ _ _ u hu
      cases hordered.inRound with
      | resetting _ he' => exact absurd he' (hidle _ _ _)
      | collecting _ hmember =>
          rcases (hmember u hu).1 with ⟨_, hst⟩ | ⟨hX, _⟩
          · rw [hall u hu] at hst
            simp at hst
          · exact hX
  | next he =>
      apply alone_of_step hserial' (by simp) (by simp)
      exact fun _ _ _ u hu => h.even _ _ _ he u hu
  | last he => exact alone_of_leave hserial (by simp [he])

end Round

section System

variable {τ σ ε γ ν : Type*} [DecidableEq τ] [DecidableEq σ] [DecidableEq ε] [DecidableEq γ]
  [DecidableEq ν]

/-- The executor is between the end of an execution and the end of `SchedulerImpl::execute`. -/
def ExecutePc.holdsMutex : ExecutePc τ γ → Bool
  | .finishing _ _ | .checking _ _ | .resetting _ _ _ | .leaving => true
  | .idle | .fetched _ | .executing _ => false

namespace System

/-- The mutex of a scheduler belongs to the executor that is in its section. -/
def Guarded (L : Layout τ σ ε γ) (s : System τ σ ε γ ν) : Prop :=
  ∀ e, (s.executor e).holdsMutex = true → s.synchronizationMutex (L.scheduler e) = some e

/-- The task is executed by executors of its scheduler. -/
def Local (L : Layout τ σ ε γ) (t : τ) (s : System τ σ ε γ ν) : Prop :=
  ∀ e, s.executor e = .fetched t ∨ s.executor e = .executing t →
    L.scheduler e = L.associatedScheduler t

variable {L : Layout τ σ ε γ} {t : τ} {s s' : System τ σ ε γ ν} {a : SystemAction τ ε ν} {e : ε}

@[simp] theorem perform_mutex : (s.perform L t).synchronizationMutex = s.synchronizationMutex := by
  by_cases hr : s.running (L.associatedScheduler t) = true <;> simp [perform, hr, setRunQueue]

@[simp] theorem activate_mutex : (s.activate L t).synchronizationMutex = s.synchronizationMutex := by
  by_cases hr : (s.task t).activate.2 = true <;> simp [activate, hr, setTask]

@[simp] theorem resetFinish_mutex :
    (s.resetFinish L t).synchronizationMutex = s.synchronizationMutex := by
  by_cases hr : (s.task t).resetFinish.2 = true <;> simp [resetFinish, hr, setTask]

private theorem Guarded.setExecutor {r : System τ σ ε γ ν} {pc : ExecutePc τ γ} (h : s.Guarded L)
    (hexecutor : r.executor = s.executor) (hmutex : r.synchronizationMutex = s.synchronizationMutex)
    (hpc : pc.holdsMutex = true → (s.executor e).holdsMutex = true) :
    (r.setExecutor e pc).Guarded L := by
  intro f hf
  show r.synchronizationMutex (L.scheduler f) = some f
  rw [hmutex]
  by_cases hfe : f = e
  · subst f
    exact h e (hpc (by simpa [System.setExecutor] using hf))
  · exact h f (by simpa [System.setExecutor, hfe, hexecutor] using hf)

theorem guarded_step (h : s.Guarded L) (hs : Step L s a s') : s'.Guarded L := by
  cases step_acts hs with
  | notify | check => exact h
  | activate =>
      intro e he
      simpa [setNotifier] using h e (by simpa [setNotifier] using he)
  | nextTask | synchronizeStart => exact h.setExecutor rfl rfl (by simp [ExecutePc.holdsMutex])
  | @executed e u _ hfree =>
      intro f hf
      by_cases hfe : f = e
      · subst f
        simp [System.setExecutor, setMutex]
      · have hold := h f (by simpa [System.setExecutor, setMutex, hfe] using hf)
        have hne : L.scheduler f ≠ L.scheduler e := by
          intro heq
          rw [heq, hfree] at hold
          simp at hold
        simpa [System.setExecutor, setMutex, hne] using hold
  | finish he | isExecuted he | areAllExecuted he | resetEnter he | resetInput he =>
      exact h.setExecutor rfl rfl fun _ => by rw [he, ExecutePc.holdsMutex]
  | resetActivate he =>
      exact h.setExecutor activate_executor activate_mutex fun _ => by rw [he, ExecutePc.holdsMutex]
  | resetFinish he =>
      exact h.setExecutor resetFinish_executor resetFinish_mutex
        fun _ => by rw [he, ExecutePc.holdsMutex]
  | @leave e he =>
      intro f hf
      by_cases hfe : f = e
      · subst f
        simp [System.setExecutor, ExecutePc.holdsMutex] at hf
      · have hold := h f (by simpa [System.setExecutor, setMutex, hfe] using hf)
        have hne : L.scheduler f ≠ L.scheduler e := by
          intro heq
          have howner := h e (by rw [he, ExecutePc.holdsMutex])
          rw [← heq, hold, Option.some.injEq] at howner
          exact hfe howner
        simpa [System.setExecutor, setMutex, hne] using hold

theorem local_step (hplaced : s.Placed L t) (h : s.Local L t) (hs : Step L s a s') :
    s'.Local L t := by
  intro f hf
  rcases step_executor hs f with heq | ⟨_, hnext⟩
  · exact h f (heq ▸ hf)
  · rcases hf with hf | hf
    · rw [hf] at hnext
      exact hplaced.elsewhere _ hnext.before_fetched
    · rw [hf] at hnext
      exact h f (Or.inl hnext.before_executing)

end System

end System

end TaskingFramework
