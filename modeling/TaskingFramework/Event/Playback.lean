import TaskingFramework.Event.Drain
import TaskingFramework.Event.SortedSchedule
import TaskingFramework.Foundation.TimedCycle

/-!
# Playing a periodic schedule

The event is queued for the active trigger of its schedule. Each handling pushes the triggers with this
offset and steps to the next one, in the same pass or at the begin of the next pass.
-/

set_option linter.unusedSectionVars false

namespace TaskingFramework

open Foundation

namespace Schedules

variable {π θ : Type} [DecidableEq π] [DecidableEq θ] {s : Schedules π θ} {p : π} {c : TimedCycle θ}
  {x : c.Position} {b : θ} {m : List θ}

/-- The schedule `p` lists the triggers of the cycle, and the active one is that of the position. -/
structure IsAt (c : TimedCycle θ) (s : Schedules π θ) (p : π) (x : c.Position) : Prop where
  lists : Lists c.offset s p c.entries
  active : (s.schedule p).activeTrigger = some x.active
  period : (s.schedule p).period_ms = c.period
  start : (s.schedule p).startTimeOffPeriod_ms = c.start + x.pass * c.period

@[simp] theorem setSchedule_schedule (schedule : PeriodicScheduleImpl θ) :
    (s.setSchedule p schedule).schedule p = schedule := by
  simp [setSchedule]

@[simp] theorem setSchedule_setSchedule (first last : PeriodicScheduleImpl θ) :
    (s.setSchedule p first).setSchedule p last = s.setSchedule p last := by
  simp only [setSchedule, Function.update_idem]

theorem Lists.setSchedule {offsetTime : θ → Nat} {l : List θ} (h : Lists offsetTime s p l)
    {schedule : PeriodicScheduleImpl θ} (htriggers : schedule.triggers = (s.schedule p).triggers) :
    Lists offsetTime (s.setSchedule p schedule) p l := by
  refine ⟨h.offset, ?_, h.sorted⟩
  rw [setSchedule_schedule, htriggers]
  exact h.chain

theorem step_within (h : (s.schedule p).activeTrigger.bind s.next = some b) :
    s.stepToNextTriggerOffset p = .ok (s.setSchedule p { s.schedule p with activeTrigger := some b },
      ((s.schedule p).startTimeOffPeriod_ms + (s.trigger b).offsetTime) % 2 ^ 64) := by
  have hnext : ((s.schedule p).activeTrigger.bind fun a => (s.trigger a).next) = some b := h
  simp only [stepToNextTriggerOffset, hnext]
  rfl

/-- At the end of the list, or without an active trigger, the next pass begins. -/
theorem step_first (h : (s.schedule p).activeTrigger.bind s.next = none)
    (hfirst : (s.schedule p).triggers = some b) :
    s.stepToNextTriggerOffset p = .ok (s.setSchedule p { s.schedule p with
        activeTrigger := some b
        startTimeOffPeriod_ms :=
          ((s.schedule p).startTimeOffPeriod_ms + (s.schedule p).period_ms) % 2 ^ 64 },
      (((s.schedule p).startTimeOffPeriod_ms + (s.schedule p).period_ms) % 2 ^ 64 +
        (s.trigger b).offsetTime) % 2 ^ 64) := by
  have hnext : ((s.schedule p).activeTrigger.bind fun a => (s.trigger a).next) = none := h
  simp only [stepToNextTriggerOffset, hnext, hfirst]
  rfl

private theorem Lists.step {offsetTime : θ → Nat} {l : List θ} (h : Lists offsetTime s p l)
    (hl : l ≠ []) :
    ∃ b start, s.stepToNextTriggerOffset p =
        .ok (s.setSchedule p { s.schedule p with
          activeTrigger := some b, startTimeOffPeriod_ms := start },
          (start + offsetTime b) % 2 ^ 64) ∧
      ((s.schedule p).activeTrigger.bind s.next = some b ∧
          start = (s.schedule p).startTimeOffPeriod_ms ∨
        (s.schedule p).activeTrigger.bind s.next = none ∧ l.head? = some b ∧
          start = ((s.schedule p).startTimeOffPeriod_ms + (s.schedule p).period_ms) % 2 ^ 64) := by
  cases hnext : (s.schedule p).activeTrigger.bind s.next with
  | some b =>
      refine ⟨b, _, ?_, Or.inl ⟨rfl, rfl⟩⟩
      rw [step_within hnext, h.offset]
  | none =>
      obtain ⟨b, m, rfl⟩ := List.exists_cons_of_ne_nil hl
      refine ⟨b, _, ?_, Or.inr ⟨rfl, rfl, rfl⟩⟩
      rw [step_first hnext h.chain.1, h.offset]

/-- The triggers with the offset of the active one are pushed, and the schedule steps to the next. -/
theorem Lists.play {offsetTime : θ → Nat} {k r : List θ} {a : θ}
    (h : Lists offsetTime s p (k ++ a :: r)) (hactive : (s.schedule p).activeTrigger = some a) :
    ∃ s₁ s₂ g m b start, r = g ++ m ∧ Returns (fun fuel => s.pushTriggers fuel p) (s₁, a :: g) ∧
      s₁.stepToNextTriggerOffset p = .ok (s₂, (start + offsetTime b) % 2 ^ 64) ∧
      s₂ = s.setSchedule p
        { s.schedule p with activeTrigger := some b, startTimeOffPeriod_ms := start } ∧
      (∀ t ∈ g, offsetTime t = offsetTime a) ∧
      (m.head? = some b ∧ offsetTime a < offsetTime b ∧
          start = (s.schedule p).startTimeOffPeriod_ms ∨
        m = [] ∧ (k ++ a :: r).head? = some b ∧
          start = ((s.schedule p).startTimeOffPeriod_ms + (s.schedule p).period_ms) % 2 ^ 64) := by
  obtain ⟨g, m, last, hbehind, hpush, hlast, hg, hm⟩ := h.push hactive
  let s₁ := s.setSchedule p { s.schedule p with activeTrigger := some last }
  have hself : s₁.schedule p = { s.schedule p with activeTrigger := some last } :=
    setSchedule_schedule _
  have hlists : s₁.Lists offsetTime p (k ++ a :: r) := h.setSchedule rfl
  obtain ⟨b, start, hstep, hnext⟩ := hlists.step (by simp)
  have hbind : (s₁.schedule p).activeTrigger.bind s₁.next = m.head? := by
    rw [hself]
    exact hlast
  rw [hbind, hself] at hnext
  refine ⟨s₁, _, g, m, b, start, hbehind, hpush, hstep, ?_, hg, ?_⟩
  · rw [hself]
    exact setSchedule_setSchedule _ _
  · rcases hnext with ⟨hb, hstart⟩ | ⟨hnone, hb, hstart⟩
    · exact Or.inl ⟨hb, hm b hb, hstart⟩
    · exact Or.inr ⟨List.head?_eq_none_iff.mp hnone, hb, hstart⟩

private theorem IsAt.play (h : s.IsAt c p x)
    (hbound : ∃ i, ∃ a ∈ c.entries, x.due < c.due i a ∧ c.due i a < 2 ^ 63) :
    ∃ s₁ s₂ l y, Returns (fun fuel => s.pushTriggers fuel p) (s₁, l) ∧
      s₁.stepToNextTriggerOffset p = .ok (s₂, y.due) ∧ s₂.IsAt c p y ∧ x.Steps l y ∧
      y.due < 2 ^ 63 := by
  obtain ⟨i, a, ha, hlater, hlt⟩ := hbound
  have hlists := h.lists
  rw [x.split] at hlists
  obtain ⟨s₁, s₂, g, m, b, start, hbehind, hpush, hstep, hs₂, hg, hnext⟩ := hlists.play h.active
  rw [← x.split] at hnext
  have hschedule : s₂.schedule p =
      { s.schedule p with activeTrigger := some b, startTimeOffPeriod_ms := start } := by
    rw [hs₂, setSchedule_schedule]
  have hlists₂ : s₂.Lists c.offset p c.entries := by
    rw [hs₂]
    exact h.lists.setSchedule rfl
  have hperiod : (s₂.schedule p).period_ms = c.period := by
    rw [hschedule]
    exact h.period
  have hactive : (s₂.schedule p).activeTrigger = some b := by rw [hschedule]
  have hstart : (s₂.schedule p).startTimeOffPeriod_ms = start := by rw [hschedule]
  rcases hnext with ⟨hb, hlate, hsame⟩ | ⟨hend, hb, hwrap⟩
  · obtain ⟨k, rfl⟩ := List.head?_eq_some_iff.mp hb
    let y := x.within hbehind
    have hsteps : x.Steps (x.active :: g) y := TimedCycle.Position.steps_within hbehind hg hlate
    have hdue := lt_of_le_of_lt (hsteps.due_le ha hlater) hlt
    have hyd : start + c.offset b = y.due := by
      rw [hsame, h.start]
      rfl
    rw [hyd, Nat.mod_eq_of_lt (by omega : y.due < 2 ^ 64)] at hstep
    refine ⟨s₁, s₂, _, y, hpush, hstep, ⟨hlists₂, hactive, hperiod, ?_⟩, hsteps, hdue⟩
    rw [hstart, hsame]
    exact h.start
  · rw [hend, List.append_nil] at hbehind
    obtain ⟨k, hentries⟩ := List.head?_eq_some_iff.mp hb
    let y := TimedCycle.Position.first (x.pass + 1) hentries
    have hsteps : x.Steps (x.active :: g) y := TimedCycle.Position.steps_first hentries hbehind hg
    have hdue := lt_of_le_of_lt (hsteps.due_le ha hlater) hlt
    have hyd : c.start + (x.pass + 1) * c.period + c.offset b = y.due := rfl
    have hpass : start = c.start + (x.pass + 1) * c.period := by
      have hmul : x.pass * c.period + c.period = (x.pass + 1) * c.period :=
        (Nat.succ_mul x.pass c.period).symm
      rw [hwrap, h.start, h.period, Nat.add_assoc, hmul]
      exact Nat.mod_eq_of_lt (by omega)
    rw [hpass, hyd, Nat.mod_eq_of_lt (by omega : y.due < 2 ^ 64)] at hstep
    exact ⟨s₁, s₂, _, y, hpush, hstep, ⟨hlists₂, hactive, hperiod, hstart.trans hpass⟩, hsteps, hdue⟩

end Schedules

namespace Events

open Clock

variable {ε π θ : Type} [DecidableEq ε] [DecidableEq π] [DecidableEq θ] {s : Events ε π θ} {e : ε}
  {p : π} {c : TimedCycle θ} {x : c.Position}

/-- The pushes of triggers, with their times. -/
def pushes (s : Events ε π θ) : List (Nat × θ) :=
  s.trace.filterMap fun entry =>
    match entry.2 with
    | .pushTrigger t => some (entry.1, t)
    | _ => none

theorem pushes_emit {effect : Effect ε θ} (h : ∀ t, effect ≠ .pushTrigger t) :
    (s.emit effect).pushes = s.pushes := by
  cases effect with
  | pushTrigger t => exact absurd rfl (h t)
  | handle e => simp [pushes, emit]
  | push e => simp [pushes, emit]
  | wake wake => simp [pushes, emit]

private theorem pushes_emit_pushTrigger (t : θ) :
    (s.emit (.pushTrigger t)).pushes = s.pushes ++ [(s.clock.time, t)] := by
  simp [pushes, emit]

private theorem emitTriggers (l : List θ) :
    ∃ s', s' = l.foldl (fun s t => s.emit (.pushTrigger t)) s ∧ s'.clock = s.clock ∧
      s'.event = s.event ∧ s'.schedules = s.schedules ∧
      s'.pushes = s.pushes ++ l.map fun t => (s.clock.time, t) := by
  induction l generalizing s with
  | nil => exact ⟨s, rfl, rfl, rfl, rfl, (List.append_nil _).symm⟩
  | cons a l ih =>
      obtain ⟨s', hs', hclock, hevent, hschedules, hpushes⟩ := ih (s := s.emit (.pushTrigger a))
      refine ⟨s', hs', hclock, hevent, hschedules, ?_⟩
      rw [hpushes, pushes_emit_pushTrigger, List.append_assoc]
      rfl

/-- The event plays the schedule, it is queued for the next trigger. -/
structure Plays (c : TimedCycle θ) (e : ε) (p : π) (s : Events ε π θ) (x : c.Position) : Prop where
  schedule : s.schedules.IsAt c p x
  event : s.event e = ⟨true, true, c.period, some p⟩
  activation : s.clock.nextActivation_ms e = x.due
  represents : s.clock.Represents [e]

/-- The handling of an event that plays a schedule: it pushes the triggers and is queued for the
next. -/
theorem handle_scheduled {q : List ε} {schedules₁ schedules₂ : Schedules π θ} {l : List θ} {time : Nat}
    (hperiodical : (s.event e).periodical = true) (hplays : (s.event e).periodicSchedule = some p)
    (hrep : s.clock.Represents q) (he : e ∉ q) (hnow : s.clock.time < 2 ^ 63)
    (hpush : Returns (fun fuel => s.schedules.pushTriggers fuel p) (schedules₁, l))
    (hstep : schedules₁.stepToNextTriggerOffset p = .ok (schedules₂, time)) (hlt : time < 2 ^ 63) :
    ∃ s' r, Returns (fun fuel => s.handle fuel e) s' ∧ s'.event = s.event ∧
      s'.schedules = schedules₂ ∧ s'.clock.Represents r ∧ r.Perm (e :: q) ∧
      s'.clock.time = s.clock.time ∧
      s'.clock.nextActivation_ms = Function.update s.clock.nextActivation_ms e time ∧
      s'.pushes = s.pushes ++ l.map fun t => (s.clock.time, t) := by
  let s₁ : Events ε π θ := s.emit (.handle e)
  obtain ⟨s₂, hs₂, hclock₂, hevent₂, hscheduled, hpushes₂⟩ :=
    emitTriggers (s := { s₁ with schedules := schedules₁ }) l
  have hrep₂ : s₂.clock.Represents q := by
    rw [hclock₂]
    exact hrep
  have hnow₂ : s₂.clock.time < 2 ^ 63 := by
    rw [hclock₂]
    exact hnow
  obtain ⟨clock, wake, r, hstart, hclock, hperm, htime, hact⟩ := hrep₂.startAt he hlt hnow₂
  let s₃ := { s₂ with schedules := schedules₂, clock := clock }.emit (.wake wake)
  have hevent₃ : s₃.event = s.event := hevent₂
  have hpushed : Returns (fun fuel => s₁.pushTriggers fuel p) s₂ := by
    rw [hs₂]
    exact hpush.bind (returns_ok _)
  have hrestart : Returns (fun fuel => s₁.restart fuel e) s₃ := by
    simp only [restart, s₁, emit_event, hplays]
    refine hpushed.bind ?_
    simp only [hscheduled, hstep, ok_bind, Events.startAt]
    exact hstart.bind (returns_ok _)
  have hfire : s₃.shallFire e = false := by
    rw [shallFire, hevent₃, hplays]
    rfl
  refine ⟨s₃, r, ?_, hevent₃, rfl, hclock, hperm, ?_, ?_, ?_⟩
  · simp only [handle, emit_event, hperiodical, if_true]
    refine hrestart.bind ?_
    simp only [hfire, Bool.false_eq_true, if_false]
    exact returns_ok _
  · show clock.time = s.clock.time
    rw [htime, hclock₂]
    rfl
  · show clock.nextActivation_ms = _
    rw [hact, hclock₂]
    rfl
  · have hwake : s₃.pushes = s₂.pushes := pushes_emit fun t => by simp
    have hhandle : s₁.pushes = s.pushes := pushes_emit fun t => by simp
    rw [hwake, hpushes₂, ← hhandle]
    rfl

theorem handle_plays (hschedule : s.schedules.IsAt c p x)
    (hevent : s.event e = ⟨true, true, c.period, some p⟩) (hrep : s.clock.Represents [])
    (hnow : s.clock.time < 2 ^ 63)
    (hbound : ∃ i, ∃ a ∈ c.entries, x.due < c.due i a ∧ c.due i a < 2 ^ 63) :
    ∃ s' l y, Returns (fun fuel => s.handle fuel e) s' ∧ Plays c e p s' y ∧ x.Steps l y ∧
      s'.clock.time = s.clock.time ∧
      s'.clock.nextActivation_ms = Function.update s.clock.nextActivation_ms e y.due ∧
      s'.pushes = s.pushes ++ l.map fun t => (s.clock.time, t) := by
  obtain ⟨schedules₁, schedules₂, l, y, hpush, hstep, hat, hsteps, hlt⟩ := hschedule.play hbound
  have hperiodical : (s.event e).periodical = true := by rw [hevent]
  have hplays : (s.event e).periodicSchedule = some p := by rw [hevent]
  obtain ⟨s', r, hret, hsame, hschedules, hclock, hperm, htime, hact, hpushes⟩ :=
    handle_scheduled hperiodical hplays hrep List.not_mem_nil hnow hpush hstep hlt
  obtain rfl : r = [e] := List.perm_singleton.mp hperm
  refine ⟨s', l, y, hret, ⟨?_, ?_, ?_, hclock⟩, hsteps, htime, hact, hpushes⟩
  · rw [hschedules]
    exact hat
  · rw [hsame]
    exact hevent
  · rw [hact, Function.update_self]

end Events

end TaskingFramework
