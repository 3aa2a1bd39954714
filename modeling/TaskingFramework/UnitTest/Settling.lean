import TaskingFramework.Clock.Disarmed
import TaskingFramework.Event.Drain
import TaskingFramework.UnitTest.SchedulerUnitTest

/-!
# Schedulers and events that are at an end

The operations by which a scheduler that does not run leaves its run queue as it is, and the events
that are started for the current time only, so that they are handled at once and nothing is left in
the clock.
-/

set_option linter.unusedSectionVars false

namespace TaskingFramework

open Foundation

namespace Scheduler

variable {τ : Type} [DecidableEq τ] {s u v : Scheduler τ} {t : τ} {i : Nat}

/-- An operation of a scheduler by which no task is executed. -/
structure Keeps (s u : Scheduler τ) : Prop where
  running : u.running = s.running
  runQueue : s.running = false → u.runQueue = s.runQueue
  finished : ∀ f, (u.task f).state = .finish → (s.task f).state = .finish
  inputs : ∀ f, (u.task f).inputs.inputs.length = (s.task f).inputs.inputs.length

private theorem Keeps.refl : Keeps s s := ⟨rfl, fun _ => rfl, fun _ => id, fun _ => rfl⟩

private theorem Keeps.trans (h : Keeps s u) (h' : Keeps u v) : Keeps s v := by
  refine ⟨h'.running.trans h.running, fun hstopped => ?_, fun f hf => ?_, fun f => ?_⟩
  · exact (h'.runQueue (h.running.trans hstopped)).trans (h.runQueue hstopped)
  · exact h.finished f (h'.finished f hf)
  · exact (h'.inputs f).trans (h.inputs f)

private theorem Keeps.setTask {task : TaskImpl}
    (hstate : task.state = .finish → (s.task t).state = .finish)
    (hinputs : task.inputs.inputs.length = (s.task t).inputs.inputs.length) :
    Keeps s (s.setTask t task) := by
  refine ⟨rfl, fun _ => rfl, fun f hf => ?_, fun f => ?_⟩
  · by_cases hft : f = t
    · subst hft
      rw [setTask_self] at hf
      exact hstate hf
    · rw [show (s.setTask t task).task f = s.task f from Function.update_of_ne hft _ _] at hf
      exact hf
  · by_cases hft : f = t
    · subst hft
      rw [setTask_self]
      exact hinputs
    · rw [show (s.setTask t task).task f = s.task f from Function.update_of_ne hft _ _]

theorem Keeps.perform : Keeps s (s.perform t) := by
  have hqueue : s.running = false → (s.perform t).runQueue = s.runQueue := by
    intro hstopped
    rw [perform_runQueue, hstopped]
    rfl
  exact ⟨(perform_concerns (s := s) (t := t)).running, hqueue, fun f hf => by rwa [perform_task] at hf,
    fun f => by rw [perform_task]⟩

private theorem activate_finished (task : TaskImpl) (h : task.activate.1.state = .finish) :
    task.state = .finish := by
  unfold TaskImpl.activate at h
  split at h
  · exact h
  · rename_i hreset
    split at h
    · cases h
    · exact hreset ▸ h
  · split at h
    · cases h
    · exact h
  · exact h
  · exact h

private theorem Keeps.activate : Keeps s (s.activate t) := by
  have hset : Keeps s (s.setTask t (s.task t).activate.1) :=
    .setTask (activate_finished _) (by rw [activate_inputs])
  unfold Scheduler.activate
  simp only
  split
  · exact hset.trans .perform
  · exact hset

private theorem Keeps.setInput (x : Input) : Keeps s (s.setTask t ((s.task t).setInput i x)) :=
  .setTask id (List.length_set)

private theorem Keeps.notifyInput : Keeps s (s.notifyInput t i) := by
  unfold Scheduler.notifyInput
  split
  · simp only
    split
    · exact (Keeps.setInput _).trans .activate
    · exact Keeps.setInput _
  · exact .refl

theorem Keeps.notifyAll (l : List (τ × Nat)) : Keeps s (s.notifyAll l) := by
  induction l generalizing s with
  | nil => exact .refl
  | cons x l ih => exact Keeps.notifyInput.trans ih

theorem Keeps.resetInput : Keeps s (s.resetInput t i) := by
  have hset : Keeps s (s.setTask t ((s.task t).resetInput i).1) := by
    unfold TaskImpl.resetInput
    split
    · exact Keeps.setInput _
    · exact .setTask id rfl
  unfold Scheduler.resetInput
  simp only
  split
  · exact hset.trans .activate
  · exact hset

theorem Keeps.resetEnter : Keeps s (s.setTask t (s.task t).resetEnter) := .setTask nofun rfl

theorem Keeps.resetFinish : Keeps s (s.setTask t (s.task t).resetFinish.1) := by
  refine .setTask (fun hfinish => ?_) (by rw [resetFinish_inputs])
  unfold TaskImpl.resetFinish at hfinish
  split at hfinish
  · cases hfinish
  · cases hfinish

end Scheduler

namespace Events

open Clock

variable {ε π θ : Type} [DecidableEq ε] [DecidableEq π] [DecidableEq θ] {s t : Events ε π θ}
  {D : Set ε} {e : ε} {fuel : Nat}

/-- The links of the clock lead to events only that are due and not periodical. -/
def Disarmed (s : Events ε π θ) : Prop :=
  ∃ D, s.clock.OnlyDue D ∧ ∀ e ∈ D, (s.event e).periodical = false

/-- A reset starts the event again for a later time. -/
def Rearms (s : Events ε π θ) (e : ε) : Prop :=
  (s.event e).configured = true ∧ (s.event e).periodical = false ∧ 0 < (s.event e).period_ms

private theorem dequeueQueued_onlyDue (h : s.clock.OnlyDue D) (hret : s.dequeueQueued fuel e = .ok t) :
    t.clock.OnlyDue D ∧ t.clock.queued e = false ∧ t.event = s.event := by
  unfold dequeueQueued at hret
  cases hqueued : s.clock.queued e with
  | true =>
      have he : e ∉ D := fun hmem => by
        rw [h.unmarked e hmem] at hqueued
        cases hqueued
      rw [if_pos hqueued] at hret
      obtain ⟨clock, hdequeue, hret⟩ := bind_eq_ok.mp hret
      obtain rfl := Except.ok.inj hret
      obtain ⟨hclock, _, hmark⟩ := h.dequeue he hdequeue
      exact ⟨hclock, hmark, rfl⟩
  | false =>
      rw [if_neg (by simp [hqueued])] at hret
      obtain rfl := Except.ok.inj hret
      exact ⟨h, hqueued, rfl⟩

/-- The reset of an event without a delay starts it for now. -/
theorem Disarmed.reset (h : s.Disarmed) (he : ¬ s.Rearms e) (hret : s.reset fuel e = .ok t) :
    t.Disarmed ∧ t.event = s.event := by
  obtain ⟨D, hclock, hperiodical⟩ := h
  unfold Events.reset at hret
  split at hret
  · rename_i hrelative
    rw [Bool.and_eq_true, Bool.not_eq_true'] at hrelative
    have hzero : (s.event e).period_ms = 0 := by
      by_contra hne
      exact he ⟨hrelative.1, hrelative.2, Nat.pos_of_ne_zero hne⟩
    obtain ⟨u, hdequeue, hret⟩ := bind_eq_ok.mp hret
    obtain ⟨hclock, hqueued, hevent⟩ := dequeueQueued_onlyDue hclock hdequeue
    rw [hevent, hzero] at hret
    obtain ⟨⟨clock, wake⟩, hstart, hret⟩ := bind_eq_ok.mp hret
    obtain rfl := Except.ok.inj hret
    refine ⟨⟨insert e D, (hclock.startIn_zero hqueued hstart).1, fun f hf => ?_⟩, hevent⟩
    show (u.event f).periodical = false
    rw [hevent]
    rcases Set.mem_insert_iff.mp hf with rfl | hf
    · exact hrelative.2
    · exact hperiodical f hf
  · obtain rfl := Except.ok.inj hret
    exact ⟨⟨D, hclock, hperiodical⟩, rfl⟩

private theorem handle_unperiodical (hperiodical : (s.event e).periodical = false)
    (hret : s.handle fuel e = .ok t) : t.clock = s.clock ∧ t.event = s.event := by
  have ht : (if (s.emit (.handle e)).shallFire e then (s.emit (.handle e)).emit (.push e)
      else s.emit (.handle e)) = t := by
    unfold Events.handle at hret
    simp only [emit_event, hperiodical, Bool.false_eq_true, if_false, pure_eq_ok, ok_bind] at hret
    exact Except.ok.inj hret
  rw [← ht]
  split
  · exact ⟨rfl, rfl⟩
  · exact ⟨rfl, rfl⟩

/-- The due events are handled once, and the queue is empty then. -/
theorem Disarmed.handleEvents (h : s.Disarmed) (hret : s.handleEvents fuel = .ok t) :
    t.Disarmed ∧ t.event = s.event ∧ t.clock.queueHead = none := by
  induction fuel generalizing s with
  | zero => exact absurd hret (by simp [Events.handleEvents])
  | succ fuel ih =>
      obtain ⟨D, hclock, hperiodical⟩ := h
      obtain ⟨⟨clock, found⟩, hread, hret⟩ := bind_eq_ok.mp hret
      obtain ⟨hclock, _, hfound⟩ := hclock.readFirstPending hread
      cases found with
      | none =>
          obtain rfl := Except.ok.inj hret
          exact ⟨⟨D, hclock, hperiodical⟩, rfl, hfound⟩
      | some e =>
          obtain ⟨u, hhandle, hret⟩ := bind_eq_ok.mp hret
          obtain ⟨huclock, huevent⟩ :=
            handle_unperiodical (s := { s with clock := clock }) (hperiodical e hfound) hhandle
          have hu : u.Disarmed := by
            refine ⟨D, huclock ▸ hclock, fun f hf => ?_⟩
            rw [huevent]
            exact hperiodical f hf
          obtain ⟨ht, hevent, hhead⟩ := ih hu hret
          exact ⟨ht, hevent.trans huevent, hhead⟩

end Events

end TaskingFramework
