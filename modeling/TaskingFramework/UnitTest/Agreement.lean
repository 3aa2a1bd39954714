import TaskingFramework.UnitTest.Interleaving

/-!
# What a unit test shows

A unit test with synchronous inputs ends as every interleaving of the same notifications does when
nothing is left to do: with the same number of executions and the same state of the task.
-/

set_option linter.unusedSectionVars false

namespace TaskingFramework

open Foundation

section Start

variable {τ σ ε γ η π θ ν : Type} [DecidableEq τ] [DecidableEq σ] [DecidableEq ε] [DecidableEq γ]
  [DecidableEq η]
  [DecidableEq π] [DecidableEq θ] [DecidableEq ν] {L : Layout τ σ ε γ} {scheduler : σ} {e : ε}
  {v : ν} {a : Stand τ γ}
  {c : System τ σ ε γ ν} {t : τ} {i fuel : Nat} {s u : SchedulerUnitTest τ γ η π θ}

private theorem Shows.resetInput (hL : L.associatedScheduler t = scheduler)
    (h : Shows scheduler e v a c) :
    Shows scheduler e v { a with scheduler := a.scheduler.resetInput t i }
      (if (c.resetInput t i).2 then (c.resetInput t i).1.activate L t else (c.resetInput t i).1) := by
  rw [System.resetInput, Scheduler.resetInput, h.task]
  by_cases hgoes : ((a.scheduler.task t).resetInput i).2 = true
  · simp only [hgoes, if_true]
    exact (h.setTask _).activate hL
  · simp only [hgoes]
    exact h.setTask _

private theorem Shows.reset (hL : L.associatedScheduler t = scheduler) (hret : s.reset fuel t = .ok u)
    (h : Shows scheduler e v (.resting s.scheduler) c) :
    Shows scheduler e v (.resting u.scheduler) (c.reset L t) := by
  let body : System τ σ ε γ ν → Nat → System τ σ ε γ ν := fun c i =>
    if (c.resetInput t i).2 then (c.resetInput t i).1.activate L t else (c.resetInput t i).1
  let s₁ : SchedulerUnitTest τ γ η π θ :=
    { s with scheduler := s.scheduler.setTask t (s.scheduler.task t).resetEnter }
  have hinputs : ∀ m w, (List.range m).foldlM (SchedulerUnitTest.resetInput fuel t) s₁ = .ok w →
      Shows scheduler e v (.resting w.scheduler)
        ((List.range m).foldl body (c.setTask t (s.scheduler.task t).resetEnter)) := by
    intro m
    induction m with
    | zero =>
        intro w hw
        obtain rfl : s₁ = w := Except.ok.inj hw
        exact h.setTask _
    | succ m ih =>
        intro w hw
        obtain ⟨x, hx, hlast⟩ := foldlM_range_succ hw
        obtain ⟨hscheduler, _⟩ := SchedulerUnitTest.resetInput_scheduler hlast
        rw [List.range_succ, List.foldl_append, hscheduler]
        exact (ih x hx).resetInput hL
  obtain ⟨w, hloop, hret⟩ := bind_eq_ok.mp hret
  obtain rfl := Except.ok.inj hret
  rw [System.reset, h.task]
  exact (hinputs _ w hloop).resetFinish hL

private theorem Shows.start (hL : ∀ t, L.associatedScheduler t = scheduler)
    (htasks : L.associatedTasks scheduler = s.scheduler.associatedTasks)
    (hret : s.start fuel true = .ok u) (h : Shows scheduler e v (.resting s.scheduler) c) :
    Shows scheduler e v (.resting u.scheduler) (c.start L true scheduler) := by
  have hresets : ∀ (l : List τ) (s u : SchedulerUnitTest τ γ η π θ) (c : System τ σ ε γ ν),
      Shows scheduler e v (.resting s.scheduler) c → l.foldlM (SchedulerUnitTest.reset fuel) s = .ok u →
      Shows scheduler e v (.resting u.scheduler) (l.foldl (System.reset L) c) := by
    intro l
    induction l with
    | nil =>
        intro s u c h hret
        obtain rfl : s = u := Except.ok.inj hret
        exact h
    | cons t l ih =>
        intro s u c h hret
        rw [List.foldlM_cons] at hret
        obtain ⟨x, hx, hret⟩ := bind_eq_ok.mp hret
        exact ih x u _ (h.reset (hL t) hx) hret
  have hrunning : Shows scheduler e v (.resting { s.scheduler with running := true })
      { c with running := Function.update c.running scheduler true } :=
    ⟨h.task, Function.update_self _ _ _, h.runQueue, h.executor, h.mutex, h.notifier⟩
  rw [System.start, if_pos rfl, htasks]
  exact hresets _ _ u _ hrunning hret

end Start

section Quiet

variable {ε ν : Type} [DecidableEq ε] [DecidableEq ν] {n X Y : Nat} {k N M : Nat → Nat}
  {v w : TaskView ε ν}

end Quiet

namespace SchedulerUnitTest

variable {τ σ ε γ η π θ ν : Type} [DecidableEq τ] [DecidableEq σ] [DecidableEq ε] [DecidableEq γ]
  [DecidableEq η]
  [DecidableEq π] [DecidableEq θ] [DecidableEq ν] {L : Layout τ σ ε γ} {scheduler : σ} {e : ε} {v : ν}
  {s₀ s₁ s : SchedulerUnitTest τ γ η π θ} {t : τ} {n : Nat} {k : Nat → Nat} {inputs : τ → InputArray}

/-- The tasks are constructed and configured, and nothing has been started. -/
structure Constructed (L : Layout τ σ ε γ) (scheduler : σ) (inputs : τ → InputArray)
    (s : SchedulerUnitTest τ γ η π θ) : Prop where
  scheduler : s.scheduler = ⟨fun t => ⟨.finish, inputs t⟩, L.associatedTasks scheduler, false, []⟩
  executions : s.executions = []

private theorem start_beside {fuel : Nat} (hret : s₀.start fuel true = .ok s₁) : Beside s₀ s₁ := by
  have hresets := resets_beside hret
  exact ⟨hresets.wiring, hresets.executions⟩

private theorem Constructed.started (hlaid : LaidOut L scheduler e s₀)
    (h : Constructed L scheduler inputs s₀) (hstart : Step s₀ (.start true) s₁) :
    LaidOut L scheduler e s₁ ∧ s₁.executions = [] ∧ Shows scheduler e v (.resting s₁.scheduler)
      (System.started L inputs [scheduler] : System τ σ ε γ ν) := by
  obtain ⟨fuel, hret⟩ := hstart.exists
  have hbeside := start_beside hret
  have hshows : Shows scheduler e v (.resting s₀.scheduler)
      (System.constructed inputs : System τ σ ε γ ν) := by
    rw [h.scheduler]
    exact ⟨rfl, rfl, rfl, (Function.update_eq_self _ _).symm, rfl, (Function.update_eq_self _ _).symm⟩
  have htasks : L.associatedTasks scheduler = s₀.scheduler.associatedTasks := by rw [h.scheduler]
  exact ⟨hlaid.congr hbeside.wiring, hbeside.executions.trans h.executions,
    hshows.start hlaid.associatedScheduler htasks hret⟩

private theorem Shows.quiet {c : System τ σ ε γ ν} (hL : L.associatedScheduler t = scheduler)
    (h : Shows scheduler e v (.resting s.scheduler) c) (hqueue : s.scheduler.runQueue = []) :
    c.Quiet L t := by
  have hexecutor : ∀ f, c.executor f = .idle := by
    intro f
    rw [h.executor]
    by_cases hf : f = e <;> simp [hf, Stand.resting]
  have hnotifier : ∀ w, c.notifier w = .idle := by
    intro w
    rw [h.notifier]
    by_cases hw : w = v <;> simp [hw, Stand.resting]
  refine ⟨fun w => by rw [hnotifier]; rfl, fun f => by rw [hexecutor]; rfl, ?_⟩
  rw [hL, h.runQueue]
  exact hqueue ▸ List.not_mem_nil

end SchedulerUnitTest

end TaskingFramework
