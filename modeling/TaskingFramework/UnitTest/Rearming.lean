import TaskingFramework.Event.WellQueued
import TaskingFramework.UnitTest.Settling

/-!
# Events that are started again

`waitUntilEmpty` executes the remaining tasks, and the reset of a task resets the channels of its
inputs. An event that is started for a later time stands in the clock queue from then on: no time
passes, so that it is not handled, and the other resets only add events.
-/

set_option linter.unusedSectionVars false

namespace TaskingFramework

open Foundation

namespace Scheduler

variable {τ : Type} [DecidableEq τ] {s : Scheduler τ} {t f : τ} {i : Nat}

private theorem notifyInput_finish (hf : (s.task f).state = .finish) :
    ((s.notifyInput t i).task f).state = .finish := by
  have hset : ∀ x, ((s.setTask t ((s.task t).setInput i x)).task f).state = .finish := by
    intro x
    by_cases hft : f = t
    · rw [hft, setTask_self]
      exact hft ▸ hf
    · rw [show (s.setTask t _).task f = s.task f from Function.update_of_ne hft _ _]
      exact hf
  have hactivate : ∀ u : Scheduler τ, (u.task f).state = .finish →
      ((u.activate t).task f).state = .finish := by
    intro u hu
    by_cases hft : f = t
    · subst hft
      rw [activate_idle (by simp [hu]) (by simp [hu])]
      exact hu
    · rw [activate_concerns.others f hft]
      exact hu
  unfold notifyInput
  split
  · simp only
    split
    · exact hactivate _ (hset _)
    · exact hset _
  · exact hf

private theorem notifyAll_finish (l : List (τ × Nat)) (hf : (s.task f).state = .finish) :
    ((s.notifyAll l).task f).state = .finish := by
  induction l generalizing s with
  | nil => exact hf
  | cons x l ih => exact ih (notifyInput_finish hf)

end Scheduler

private theorem Events.dequeueQueued_marked {ε π θ : Type} [DecidableEq ε] [DecidableEq π]
    [DecidableEq θ] {s : Events ε π θ} {q : List ε} (h : s.clock.Marked q) (e : ε) :
    ∃ clock, Returns (fun fuel => s.dequeueQueued fuel e) { s with clock := clock } ∧
      clock.Marked (q.erase e) ∧ clock.time = s.clock.time ∧
      clock.nextActivation_ms = s.clock.nextActivation_ms := by
  cases hqueued : s.clock.queued e with
  | true =>
      obtain ⟨clock, hret, hmarked, htime, hact⟩ := h.dequeue e
      refine ⟨clock, ?_, hmarked, htime, hact⟩
      simp only [Events.dequeueQueued, hqueued, if_true]
      exact hret.bind (returns_ok _)
  | false =>
      have he : e ∉ q := fun hmem => by simp [h.queued_iff.mpr hmem] at hqueued
      refine ⟨s.clock, returns_of_add 0 fun fuel => ?_, (List.erase_of_not_mem he).symm ▸ h, rfl, rfl⟩
      simp only [Events.dequeueQueued, hqueued, Bool.false_eq_true, if_false]

namespace SchedulerUnitTest

variable {τ γ ε π θ : Type} [DecidableEq τ] [DecidableEq γ] [DecidableEq ε] [DecidableEq π]
  [DecidableEq θ] {s s₀ u v : SchedulerUnitTest τ γ ε π θ} {t x : τ} {e : ε} {q : List ε}

/-- The task is reset when the remaining tasks are executed: as a task of the run queue, or with its
group, if all tasks of the group are executed or in the run queue. -/
def Resets (s : SchedulerUnitTest τ γ ε π θ) (t : τ) : Prop :=
  (t ∈ s.scheduler.runQueue ∧ s.wiring.group t = none) ∨
    ∃ g, t ∈ s.wiring.taskList g ∧ (∃ f ∈ s.scheduler.runQueue, s.wiring.group f = some g) ∧
      ∀ f ∈ s.wiring.taskList g, (s.scheduler.task f).state = .finish ∨ f ∈ s.scheduler.runQueue

/-- The reset of the task starts an event of its inputs for a later time. -/
def RearmsBy (s : SchedulerUnitTest τ γ ε π θ) (t : τ) : Prop :=
  ∃ i e, i < (s.scheduler.task t).inputs.inputs.length ∧ s.wiring.channel t i = some e ∧
    s.events.Rearms e

/-- A reset of the remaining tasks starts an event for a later time. -/
def Rearms (s : SchedulerUnitTest τ γ ε π θ) : Prop := ∃ t, s.Resets t ∧ s.RearmsBy t

theorem follow_same {events : Events ε π θ} (htrace : events.trace = s.events.trace) :
    s.follow events = { s with events := events } := by
  unfold follow
  rw [htrace, List.drop_length]
  rfl

/-- Resets start events for later only, with times that fit, and a task is in the list of its own
group only. -/
structure Regular (s : SchedulerUnitTest τ γ ε π θ) : Prop where
  later : ∀ e, (s.events.event e).configured = true → (s.events.event e).periodical = false →
    0 < (s.events.event e).period_ms ∧ s.events.clock.time + (s.events.event e).period_ms < 2 ^ 63
  grouped : ∀ t g, t ∈ s.wiring.taskList g → s.wiring.group t = some g

/-- A state on the way of `waitUntilEmpty` from `s₀` on, with the events `q` in the clock queue. -/
structure Ahead (s₀ s : SchedulerUnitTest τ γ ε π θ) (q : List ε) : Prop where
  wiring : s.wiring = s₀.wiring
  event : s.events.event = s₀.events.event
  time : s.events.clock.time = s₀.events.clock.time
  inputs : ∀ t, (s.scheduler.task t).inputs.inputs.length = (s₀.scheduler.task t).inputs.inputs.length
  running : s.scheduler.running = false
  marked : s.events.clock.Marked q
  later : ∀ e ∈ q, s.events.clock.time < s.events.clock.nextActivation_ms e

private theorem Ahead.keeps {scheduler : Scheduler τ} (h : Ahead s₀ s q)
    (hkeeps : Scheduler.Keeps s.scheduler scheduler) :
    Ahead s₀ { s with scheduler := scheduler } q :=
  { h with
    inputs := fun t => (hkeeps.inputs t).trans (h.inputs t)
    running := hkeeps.running.trans h.running }

private theorem Ahead.resetEvent (h : Ahead s₀ s q) (hs₀ : s₀.Regular) (e : ε) :
    ∃ events r, Returns (fun fuel => s.events.reset fuel e) events ∧
      Ahead s₀ { s with events := events } r ∧ (∀ f ∈ q, f ∈ r) ∧ (s₀.events.Rearms e → e ∈ r) := by
  by_cases hrelative : (s.events.event e).configured = true ∧ (s.events.event e).periodical = false
  · obtain ⟨hconfigured, hperiodical⟩ := hrelative
    obtain ⟨hpos, hlt⟩ := hs₀.later e (h.event ▸ hconfigured) (h.event ▸ hperiodical)
    rw [← h.event, ← h.time] at hlt
    rw [← h.event] at hpos
    obtain ⟨clock, hdequeue, hmarked, htime, hact⟩ := Events.dequeueQueued_marked h.marked e
    obtain ⟨clock', wake, r, hstart, hmarked', htime', hact', hperm⟩ :=
      hmarked.startAt (t := clock.time + (s.events.event e).period_ms) h.marked.nodup.not_mem_erase
        (htime ▸ hlt) (Nat.lt_add_of_pos_right hpos)
    have hin := hstart.congr fun fuel => (Clock.startIn_eq fuel hpos.ne' (by omega)).symm
    refine ⟨{ s.events with clock := clock' }.emit (.wake wake), r, ?_, ?_, ?_, fun _ => ?_⟩
    · have hreset : Returns (fun fuel => s.events.dequeueQueued fuel e >>= fun events =>
          events.startIn fuel e (events.event e).period_ms)
          ({ s.events with clock := clock' }.emit (.wake wake)) :=
        hdequeue.bind (hin.bind (returns_ok _))
      refine hreset.congr fun fuel => ?_
      rw [Events.reset, if_pos (by simp [hconfigured, hperiodical])]
    · refine ⟨h.wiring, h.event, (htime'.trans htime).trans h.time, h.inputs, h.running, hmarked',
        fun f hf => ?_⟩
      show clock'.time < clock'.nextActivation_ms f
      rw [htime', hact', hact, htime]
      by_cases hfe : f = e
      · rw [hfe, Function.update_self]
        omega
      · rw [Function.update_of_ne hfe]
        exact h.later f (List.mem_of_mem_erase ((List.mem_cons.mp (hperm.subset hf)).resolve_left hfe))
    · intro f hf
      refine hperm.symm.subset ?_
      by_cases hfe : f = e
      · rw [hfe]
        exact List.mem_cons_self
      · exact List.mem_cons_of_mem e ((List.mem_erase_of_ne hfe).mpr hf)
    · exact hperm.symm.subset List.mem_cons_self
  · refine ⟨s.events, q, returns_of_add 0 fun fuel => ?_, h, fun _ => id, fun hrearms => ?_⟩
    · rw [Events.reset, if_neg (by simpa using hrelative)]
      rfl
    · obtain ⟨hconfigured, hperiodical, _⟩ := hrearms
      exact absurd ⟨h.event ▸ hconfigured, h.event ▸ hperiodical⟩ hrelative

private theorem Ahead.resetInput (h : Ahead s₀ s q) (hs₀ : s₀.Regular) (t : τ) (i : Nat) :
    ∃ u r, Returns (fun fuel => resetInput fuel t s i) u ∧ Ahead s₀ u r ∧ (∀ f ∈ q, f ∈ r) ∧
      u.scheduler = s.scheduler.resetInput t i ∧
      ∀ e, s₀.wiring.channel t i = some e → s₀.events.Rearms e → e ∈ r := by
  cases hchannel : s.wiring.channel t i with
  | none =>
      refine ⟨{ s with scheduler := s.scheduler.resetInput t i }, q, returns_of_add 0 fun fuel => ?_,
        h.keeps .resetInput, fun _ => id, rfl, fun e he => ?_⟩
      · simp only [SchedulerUnitTest.resetInput, hchannel, ok_bind, pure_eq_ok]
      · rw [← h.wiring, hchannel] at he
        cases he
  | some a =>
      obtain ⟨events, r, hret, hnext, hsubset, hrearms⟩ := h.resetEvent hs₀ a
      refine ⟨{ s with events := events, scheduler := s.scheduler.resetInput t i }, r, ?_,
        hnext.keeps .resetInput, hsubset, rfl, fun e he => ?_⟩
      · simp only [SchedulerUnitTest.resetInput, hchannel]
        exact hret.bind (returns_ok _)
      · rw [← h.wiring, hchannel] at he
        obtain rfl := Option.some.inj he
        exact hrearms

private theorem Ahead.resetInputs (h : Ahead s₀ s q) (hs₀ : s₀.Regular) (t : τ) (l : List Nat) :
    ∃ u, Returns (fun fuel => l.foldlM (SchedulerUnitTest.resetInput fuel t) s) u ∧
      u.scheduler = l.foldl (fun s i => s.resetInput t i) s.scheduler ∧
      ∃ r, Ahead s₀ u r ∧ (∀ f ∈ q, f ∈ r) ∧
        ∀ i ∈ l, ∀ e, s₀.wiring.channel t i = some e → s₀.events.Rearms e → e ∈ r := by
  let I : List Nat → SchedulerUnitTest τ γ ε π θ → Prop := fun k u =>
    u.scheduler = k.foldl (fun s i => s.resetInput t i) s.scheduler ∧
      ∃ r, Ahead s₀ u r ∧ (∀ f ∈ q, f ∈ r) ∧
        ∀ i ∈ k, ∀ e, s₀.wiring.channel t i = some e → s₀.events.Rearms e → e ∈ r
  have hstep : ∀ k a i, i ∈ l → I k a →
      ∃ u, Returns (fun fuel => SchedulerUnitTest.resetInput fuel t a i) u ∧ I (k ++ [i]) u := by
    intro k a i _ ⟨hfold, r, ha, hkept, hall⟩
    obtain ⟨u, r', hret, hu, hsubset, hscheduler, hi⟩ := ha.resetInput hs₀ t i
    refine ⟨u, hret, ?_, r', hu, fun f hf => hsubset f (hkept f hf), fun j hj e he hrearms => ?_⟩
    · rw [hscheduler, hfold, List.foldl_append]
      rfl
    · rcases List.mem_append.mp hj with hj | hj
      · exact hsubset e (hall j hj e he hrearms)
      · rw [List.mem_singleton.mp hj] at he
        exact hi e he hrearms
  exact foldlM_returns (I := I) ⟨rfl, q, h, fun _ => id, nofun⟩ hstep

private theorem Ahead.reset (h : Ahead s₀ s q) (hs₀ : s₀.Regular) (t : τ) :
    ∃ u r, Returns (fun fuel => s.reset fuel t) u ∧ Ahead s₀ u r ∧ (∀ f ∈ q, f ∈ r) ∧
      (s₀.RearmsBy t → r ≠ []) ∧ (∀ f, f ≠ t → u.scheduler.task f = s.scheduler.task f) ∧
      u.scheduler.runQueue = s.scheduler.runQueue := by
  have hentered := h.keeps (.resetEnter (t := t))
  obtain ⟨v, hinputs, hscheduler, r, hv, hkept, hstarted⟩ :=
    hentered.resetInputs hs₀ t (List.range (s.scheduler.task t).inputs.inputs.length)
  have hfinish : (if (v.scheduler.task t).resetFinish.2 then
      (v.scheduler.setTask t (v.scheduler.task t).resetFinish.1).perform t
      else v.scheduler.setTask t (v.scheduler.task t).resetFinish.1) = s.scheduler.reset t := by
    rw [hscheduler]
    rfl
  refine ⟨{ v with scheduler := s.scheduler.reset t }, r, ?_, ?_, hkept, ?_, ?_, ?_⟩
  · rw [← hfinish]
    exact hinputs.bind (returns_ok _)
  · rw [← hfinish]
    split
    · exact (hv.keeps .resetFinish).keeps .perform
    · exact hv.keeps .resetFinish
  · rintro ⟨i, e, hi, hchannel, hrearms⟩ hnil
    rw [← h.inputs t] at hi
    exact List.not_mem_nil (hnil ▸ hstarted i (List.mem_range.mpr hi) e hchannel hrearms)
  · exact Scheduler.reset_concerns.1.others
  · rcases (Scheduler.reset_concerns (s := s.scheduler) (t := t)).2 with ⟨_, hqueue⟩ | ⟨_, hqueue⟩
    · exact hqueue
    · rw [hqueue, h.running]
      rfl

/-- The task `t` is reset if the tasks of the run queue and the fetched task `x` are executed. -/
def ResetsWith (s : SchedulerUnitTest τ γ ε π θ) (x t : τ) : Prop :=
  Resets { s with scheduler := { s.scheduler with runQueue := x :: s.scheduler.runQueue } } t

private theorem Ahead.resetAll (h : Ahead s₀ s q) (hs₀ : s₀.Regular) (l : List τ) :
    ∃ u, Returns (fun fuel => l.foldlM (SchedulerUnitTest.reset fuel) s) u ∧
      (∀ f ∉ l, u.scheduler.task f = s.scheduler.task f) ∧
      u.scheduler.runQueue = s.scheduler.runQueue ∧
      ∃ r, Ahead s₀ u r ∧ (∀ f ∈ q, f ∈ r) ∧ ∀ f ∈ l, s₀.RearmsBy f → r ≠ [] := by
  let I : List τ → SchedulerUnitTest τ γ ε π θ → Prop := fun k u =>
    (∀ f ∉ k, u.scheduler.task f = s.scheduler.task f) ∧ u.scheduler.runQueue = s.scheduler.runQueue ∧
      ∃ r, Ahead s₀ u r ∧ (∀ f ∈ q, f ∈ r) ∧ ∀ f ∈ k, s₀.RearmsBy f → r ≠ []
  have hstep : ∀ k a x, x ∈ l → I k a →
      ∃ u, Returns (fun fuel => a.reset fuel x) u ∧ I (k ++ [x]) u := by
    intro k a x _ ⟨hothers, hqueue, r, ha, hkept, hall⟩
    obtain ⟨u, r', hret, hu, hsubset, hx, hothers', hqueue'⟩ := ha.reset hs₀ x
    refine ⟨u, hret, fun f hf => ?_, hqueue'.trans hqueue, r', hu, fun f hf => hsubset f (hkept f hf),
      fun f hf hrearms => ?_⟩
    · rw [List.mem_append, List.mem_singleton, not_or] at hf
      exact (hothers' f hf.2).trans (hothers f hf.1)
    · rcases List.mem_append.mp hf with hf | hf
      · obtain ⟨e, he⟩ := List.exists_mem_of_ne_nil r (hall f hf hrearms)
        exact List.ne_nil_of_mem (hsubset e he)
      · exact hx (List.mem_singleton.mp hf ▸ hrearms)
  exact foldlM_returns (I := I) ⟨fun _ _ => rfl, rfl, q, h, fun _ => id, nofun⟩ hstep

private theorem ResetsWith.outside (h : s.ResetsWith x t)
    (hgrouped : ∀ f g, f ∈ s.wiring.taskList g → s.wiring.group f = some g)
    (hx : s.wiring.group x = none → t ≠ x)
    (ht : ∀ g, s.wiring.group x = some g → t ∉ s.wiring.taskList g) (hwiring : u.wiring = s.wiring)
    (hqueue : u.scheduler.runQueue = s.scheduler.runQueue)
    (htask : ∀ f, f ≠ x → (∀ g, s.wiring.group x = some g → f ∉ s.wiring.taskList g) →
      u.scheduler.task f = s.scheduler.task f) : u.Resets t := by
  have hmem : ∀ f, f ∈ x :: s.scheduler.runQueue → f ≠ x → f ∈ u.scheduler.runQueue := by
    intro f hf hfx
    rw [hqueue]
    exact (List.mem_cons.mp hf).resolve_left hfx
  unfold Resets
  rw [hwiring]
  rcases h with ⟨hqueued, hgroup⟩ | ⟨g, hlist, ⟨f, hf, hfgroup⟩, hall⟩
  · refine Or.inl ⟨hmem t hqueued ?_, hgroup⟩
    rintro rfl
    exact hx hgroup rfl
  · have hxg : s.wiring.group x ≠ some g := fun hxg => ht g hxg hlist
    refine Or.inr ⟨g, hlist, ⟨f, hmem f hf ?_, hfgroup⟩, fun m hm => ?_⟩
    · rintro rfl
      exact hxg hfgroup
    · have hmgroup := hgrouped m g hm
      have hmx : m ≠ x := by
        rintro rfl
        exact hxg hmgroup
      rw [htask m hmx fun g' hg' hm' => hxg (hg'.trans ((hgrouped m g' hm').symm.trans hmgroup))]
      exact (hall m hm).imp_right fun hin => hmem m hin hmx

private theorem ResetsWith.unfinished {g : γ} (h : s.ResetsWith x t)
    (hgrouped : ∀ f g, f ∈ s.wiring.taskList g → s.wiring.group f = some g)
    (ht : t ∈ s.wiring.taskList g) (hwiring : u.wiring = s.wiring)
    (hqueue : u.scheduler.runQueue = s.scheduler.runQueue)
    (hx : (u.scheduler.task x).state = .finish)
    (htask : ∀ f, f ≠ x → u.scheduler.task f = s.scheduler.task f)
    (hnot : ∃ f ∈ s.wiring.taskList g, (u.scheduler.task f).state ≠ .finish) : u.Resets t := by
  have hall : ∀ f ∈ s.wiring.taskList g,
      (u.scheduler.task f).state = .finish ∨ f ∈ u.scheduler.runQueue := by
    rcases h with ⟨_, hgroup⟩ | ⟨g', hlist, _, hall⟩
    · rw [hgrouped t g ht] at hgroup
      cases hgroup
    · obtain rfl := Option.some.inj ((hgrouped t g' hlist).symm.trans (hgrouped t g ht))
      intro f hf
      by_cases hfx : f = x
      · exact Or.inl (hfx ▸ hx)
      · rw [htask f hfx, hqueue]
        exact (hall f hf).imp_right fun hin => (List.mem_cons.mp hin).resolve_left hfx
  obtain ⟨f, hf, hunfinished⟩ := hnot
  unfold Resets
  rw [hwiring]
  exact Or.inr ⟨g, ht, ⟨f, (hall f hf).resolve_left hunfinished, hgrouped f g hf⟩, hall⟩

private theorem Ahead.finalizeExecution (h : Ahead s₀ s q) (hs₀ : s₀.Regular)
    (ht : s₀.RearmsBy t) :
    ∃ u r, Returns (fun fuel => s.finalizeExecution fuel x) u ∧ Ahead s₀ u r ∧ (∀ f ∈ q, f ∈ r) ∧
      (s.ResetsWith x t → r ≠ [] ∨ u.Resets t) := by
  have hgrouped : ∀ f g, f ∈ s.wiring.taskList g → s.wiring.group f = some g := by
    rw [h.wiring]
    exact hs₀.grouped
  cases hgroup : s.wiring.group x with
  | none =>
      obtain ⟨u, r, hret, hu, hkept, hx, hothers, hqueue⟩ := h.reset hs₀ x
      refine ⟨u, r, hret.congr fun fuel => ?_, hu, hkept, fun hresets => ?_⟩
      · simp only [SchedulerUnitTest.finalizeExecution, hgroup]
      · by_cases htx : t = x
        · exact Or.inl (hx (htx ▸ ht))
        · exact Or.inr (hresets.outside hgrouped (fun _ => htx) (by simp [hgroup])
            (hu.wiring.trans h.wiring.symm) hqueue fun f hf _ => hothers f hf)
  | some g =>
      let s₁ := { s with
        scheduler := s.scheduler.setTask x { s.scheduler.task x with state := .finish } }
      have hother : ∀ f, f ≠ x → s₁.scheduler.task f = s.scheduler.task f :=
        fun f hf => Function.update_of_ne hf _ _
      have hself : (s₁.scheduler.task x).state = .finish := by
        rw [show s₁.scheduler.task x = _ from Scheduler.setTask_self _]
      have h₁ : Ahead s₀ s₁ q := by
        refine { h with inputs := fun f => ?_ }
        by_cases hf : f = x
        · rw [hf, show s₁.scheduler.task x = _ from Scheduler.setTask_self _]
          exact h.inputs x
        · rw [hother f hf]
          exact h.inputs f
      have hout : ∀ u : SchedulerUnitTest τ γ ε π θ, s.ResetsWith x t → t ∉ s.wiring.taskList g →
          u.wiring = s.wiring → u.scheduler.runQueue = s.scheduler.runQueue →
          (∀ f ∉ s.wiring.taskList g, u.scheduler.task f = s₁.scheduler.task f) → u.Resets t := by
        intro u hresets hlist hwiring hqueue htask
        refine hresets.outside hgrouped (by simp [hgroup]) ?_ hwiring hqueue fun f hf hnot => ?_
        · intro g' hg'
          rw [hgroup] at hg'
          exact Option.some.inj hg' ▸ hlist
        · exact (htask f (hnot g hgroup)).trans (hother f hf)
      by_cases hall : (s.wiring.taskList g).all (fun f => (s₁.scheduler.task f).isExecuted) = true
      · obtain ⟨u, hret, hothers, hqueue, r, hu, hkept, hreset⟩ := h₁.resetAll hs₀ (s.wiring.taskList g)
        refine ⟨u, r, hret.congr fun fuel => ?_, hu, hkept, fun hresets => ?_⟩
        · simp only [SchedulerUnitTest.finalizeExecution, hgroup]
          exact (if_pos hall).symm
        · by_cases hlist : t ∈ s.wiring.taskList g
          · exact Or.inl (hreset t hlist ht)
          · exact Or.inr (hout u hresets hlist (hu.wiring.trans h.wiring.symm) hqueue hothers)
      · refine ⟨s₁, q, returns_of_add 0 fun fuel => ?_, h₁, fun _ => id, fun hresets => Or.inr ?_⟩
        · simp only [SchedulerUnitTest.finalizeExecution, hgroup]
          exact if_neg hall
        · by_cases hlist : t ∈ s.wiring.taskList g
          · refine hresets.unfinished hgrouped hlist rfl rfl hself hother ?_
            simpa [TaskImpl.isExecuted] using hall
          · exact hout s₁ hresets hlist rfl rfl fun _ _ => rfl

private theorem Ahead.execute (h : Ahead s₀ s q) (hs₀ : s₀.Regular) (ht : s₀.RearmsBy t)
    (hwaits : q ≠ [] ∨ s.Resets t) (hx : x ∈ s.scheduler.runQueue) (notified : List (τ × Nat)) :
    ∃ u r, Returns (fun fuel => s.execute fuel x notified) u ∧ Ahead s₀ u r ∧
        (r ≠ [] ∨ u.Resets t) := by
  let fetched := { s.scheduler with runQueue := s.scheduler.runQueue.erase x }
  let s₁ := { s with scheduler := fetched.notifyAll notified, executions := s.executions ++ [x] }
  have hfetched : Ahead s₀ { s with scheduler := fetched, executions := s.executions ++ [x] } q :=
    { h with }
  have hkeeps : Scheduler.Keeps fetched (fetched.notifyAll notified) := .notifyAll notified
  have h₁ : Ahead s₀ s₁ q := hfetched.keeps hkeeps
  obtain ⟨u, r, hret, hu, hkept, hnext⟩ := h₁.finalizeExecution (x := x) hs₀ ht
  refine ⟨u, r, hret, hu, ?_⟩
  rcases hwaits with hq | hresets
  · obtain ⟨e, he⟩ := List.exists_mem_of_ne_nil q hq
    exact Or.inl (List.ne_nil_of_mem (hkept e he))
  · apply hnext
    have hqueue : s₁.scheduler.runQueue = s.scheduler.runQueue.erase x := hkeeps.runQueue h.running
    have hmem : ∀ f, f ∈ s.scheduler.runQueue → f ∈ x :: s₁.scheduler.runQueue := by
      intro f hf
      rw [hqueue]
      exact (List.perm_cons_erase hx).subset hf
    rcases hresets with ⟨htq, hgroup⟩ | ⟨g, hlist, ⟨f, hf, hfgroup⟩, hall⟩
    · exact Or.inl ⟨hmem t htq, hgroup⟩
    · refine Or.inr ⟨g, hlist, ⟨f, hmem f hf, hfgroup⟩, fun m hm => ?_⟩
      exact (hall m hm).imp (fun hfinish => Scheduler.notifyAll_finish notified hfinish) (hmem m)

private theorem Ahead.executes (h : Ahead s₀ s q) (hs₀ : s₀.Regular) (ht : s₀.RearmsBy t)
    (hwaits : q ≠ [] ∨ s.Resets t) (hexecutes : Executes s u) : ∃ r, Ahead s₀ u r ∧ r ≠ [] := by
  induction hexecutes generalizing q with
  | empty hqueue =>
      refine ⟨q, h, hwaits.resolve_right ?_⟩
      rintro (⟨hmem, _⟩ | ⟨g, _, ⟨f, hmem, _⟩, _⟩)
      · exact List.not_mem_nil (hqueue ▸ hmem)
      · exact List.not_mem_nil (hqueue ▸ hmem)
  | next hx hreturn _ ih =>
      obtain ⟨v, r, hret, hv, hr⟩ := h.execute hs₀ ht hwaits hx _
      obtain rfl := hreturn.unique hret
      exact ih hv hr

private theorem Ahead.handleEvents (h : Ahead s₀ s q) :
    Returns (fun fuel => s.handleEvents fuel) s := by
  have hread := Clock.readFirstPending_none h.marked.toRepresents fun e he =>
    h.later e (List.mem_of_mem_head? he)
  have hhandle : Returns (fun fuel => s.events.handleEvents fuel) s.events :=
    (hread.bind (returns_ok s.events)).step fun fuel => rfl
  have hsame : s.follow s.events = s := follow_same rfl
  have hfollow : Returns (fun fuel => s.handleEvents fuel) (s.follow s.events) :=
    hhandle.bind (returns_ok _)
  rwa [hsame] at hfollow

private theorem Ahead.loops (h : Ahead s₀ s q) (hs₀ : s₀.Regular) (ht : s₀.RearmsBy t)
    (hwaits : q ≠ [] ∨ s.Resets t) (hloops : Loops s u) : ∃ r, Ahead s₀ u r ∧ r ≠ [] := by
  induction hloops generalizing q with
  | last hhandle hexecutes _ =>
      obtain rfl := hhandle.unique h.handleEvents
      exact h.executes hs₀ ht hwaits hexecutes
  | again hhandle hexecutes _ _ ih =>
      obtain rfl := hhandle.unique h.handleEvents
      obtain ⟨r, hr, hne⟩ := h.executes hs₀ ht hwaits hexecutes
      exact ih hr (Or.inl hne)

theorem Terminates.rearmed (h : Terminates s true u) (hs : s.Regular)
    (hclock : s.events.clock.Represents q) (hrearms : s.Rearms) : u.events.clock.queueHead ≠ none := by
  obtain ⟨t, hresets, ht⟩ := hrearms
  obtain ⟨clock, hclear, hloops⟩ := h
  obtain ⟨clock', hclear', hempty, htime, _⟩ := Clock.dequeueAll_represents hclock
  obtain rfl := hclear.unique hclear'
  obtain ⟨i, e, hi, hchannel, hconfigured, hperiodical, hpos⟩ := ht
  have hnow := (hs.later e hconfigured hperiodical).2
  let s₀ := (s.stopped true clock).step 0
  have hsame : s₀.events.clock = clock := by
    have hmod : (clock.time + 0) % 2 ^ 64 = clock.time := by omega
    show { clock with time := (clock.time + 0) % 2 ^ 64 } = clock
    rw [hmod]
  have hs₀ : s₀.Regular := ⟨fun e hc hp => hsame ▸ htime ▸ hs.later e hc hp, hs.grouped⟩
  have hstart : Ahead s₀ s₀ [] := by
    refine ⟨rfl, rfl, rfl, fun _ => rfl, rfl, ?_, nofun⟩
    rw [hsame]
    exact ⟨hempty, nofun⟩
  obtain ⟨r, hr, hne⟩ :=
    hstart.loops hs₀ (t := t) ⟨i, e, hi, hchannel, hconfigured, hperiodical, hpos⟩
      (Or.inr hresets) hloops
  obtain ⟨a, l, rfl⟩ := List.exists_cons_of_ne_nil hne
  rw [hr.marked.chain.1]
  exact Option.some_ne_none a

end SchedulerUnitTest

end TaskingFramework
