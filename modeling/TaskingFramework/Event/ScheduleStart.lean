import TaskingFramework.Event.Playback
import TaskingFramework.Event.QueuedOnce

/-!
# The start of a schedule

`setPeriodicSchedule` steps to the first trigger of the schedule and queues the event if the time of
this trigger is below the period. This is a comparison of a time with a duration: it is the intended one
only when the period starts at zero.
-/

set_option linter.unusedSectionVars false

namespace TaskingFramework

open Foundation

private theorem nextPeriod_le {start now : Nat} (period : Nat) (h : start ≤ now) :
    nextPeriod start period now ≤ now + period := by
  have hdiv := Nat.div_mul_le_self (now - start) period
  unfold nextPeriod
  rw [Nat.add_mul, Nat.one_mul]
  omega

theorem le_configuredStart {now period offset : Nat} (hp : 0 < period) (hlt : now + period < 2 ^ 64) :
    now ≤ Events.configuredStart now period offset := by
  unfold Events.configuredStart
  by_cases hpast : offset < now
  · have hle := nextPeriod_le period hpast.le
    have hbehind := lt_nextPeriod hp hpast.le
    rw [if_pos hpast, if_pos hp, Nat.mod_eq_of_lt (by omega)]
    exact hbehind.le
  · rw [if_neg hpast]
    omega

namespace Schedules

variable {π θ : Type} [DecidableEq π] [DecidableEq θ] {s s' : Schedules π θ} {p : π} {b t : θ}
  {offsetTime : θ → Nat} {l : List θ} {start period : Nat}

/-- The schedule in front of the first step, which adds the period. -/
def configured (s : Schedules π θ) (p : π) (start period : Nat) : Schedules π θ :=
  s.setSchedule p { s.schedule p with
    startTimeOffPeriod_ms := (2 ^ 64 + start - period) % 2 ^ 64
    period_ms := period }

private theorem configured_schedule : (s.configured p start period).schedule p = { s.schedule p with
    startTimeOffPeriod_ms := (2 ^ 64 + start - period) % 2 ^ 64
    period_ms := period } :=
  setSchedule_schedule _

/-- A schedule that has not played, or whose last trigger is active, starts with its first trigger. -/
theorem configured_step (hend : (s.schedule p).activeTrigger.bind s.next = none)
    (hfirst : (s.schedule p).triggers = some b) (hstart : start < 2 ^ 64) (hperiod : period < 2 ^ 64) :
    (s.configured p start period).stepToNextTriggerOffset p =
      .ok (s.setSchedule p { s.schedule p with
          activeTrigger := some b, startTimeOffPeriod_ms := start, period_ms := period },
        (start + (s.trigger b).offsetTime) % 2 ^ 64) := by
  have hnext : ((s.configured p start period).schedule p).activeTrigger.bind
      (s.configured p start period).next = none := by
    rw [configured_schedule]
    exact hend
  have hhead : ((s.configured p start period).schedule p).triggers = some b := by
    rw [configured_schedule]
    exact hfirst
  have hwrap : ((2 ^ 64 + start - period) % 2 ^ 64 + period) % 2 ^ 64 = start := by omega
  rw [step_first hnext hhead, configured_schedule]
  simp only [hwrap]
  rw [configured, setSchedule_setSchedule]
  rfl

/-- A schedule with a trigger behind the active one starts with that, a period earlier. -/
theorem configured_step_within (hnext : (s.schedule p).activeTrigger.bind s.next = some b) :
    (s.configured p start period).stepToNextTriggerOffset p =
      .ok (s.setSchedule p { s.schedule p with
          activeTrigger := some b
          startTimeOffPeriod_ms := (2 ^ 64 + start - period) % 2 ^ 64
          period_ms := period },
        ((2 ^ 64 + start - period) % 2 ^ 64 + (s.trigger b).offsetTime) % 2 ^ 64) := by
  have hnext' : ((s.configured p start period).schedule p).activeTrigger.bind
      (s.configured p start period).next = some b := by
    rw [configured_schedule]
    exact hnext
  rw [step_within hnext', configured_schedule, configured, setSchedule_setSchedule]
  rfl

/-- A schedule that has not played yet, its list begins with one of the first triggers of `l`. -/
structure Headed (offsetTime : θ → Nat) (s : Schedules π θ) (p : π) (l : List θ) : Prop where
  offset : ∀ t, (s.trigger t).offsetTime = offsetTime t
  idle : (s.schedule p).activeTrigger = none
  empty : (s.schedule p).triggers = none → l = []
  head : ∀ b ∈ (s.schedule p).triggers, b ∈ l ∧ ∀ t ∈ l, offsetTime b ≤ offsetTime t

@[simp] theorem setNext_schedule (v : Option θ) : (s.setNext t v).schedule = s.schedule := rfl

private theorem Headed.push (h : Headed offsetTime s p l) (hschedule : s'.schedule p =
      { s.schedule p with triggers := some t })
    (hoffset : ∀ f, (s'.trigger f).offsetTime = offsetTime f)
    (hfirst : ∀ f ∈ l, offsetTime t ≤ offsetTime f) : Headed offsetTime s' p (l ++ [t]) := by
  refine ⟨hoffset, ?_, ?_, ?_⟩
  · rw [hschedule]
    exact h.idle
  · intro hnone
    rw [hschedule] at hnone
    exact absurd hnone (Option.some_ne_none t)
  · intro b hb
    rw [hschedule] at hb
    obtain rfl : t = b := Option.some.inj hb
    refine ⟨by simp, fun f hf => ?_⟩
    rcases List.mem_append.mp hf with hf | hf
    · exact hfirst f hf
    · rw [List.mem_singleton.mp hf]

private theorem Headed.sortIn {fuel : Nat} (h : Headed offsetTime s p l)
    (hret : s.sortIn fuel p t = .ok s') : Headed offsetTime s' p (l ++ [t]) := by
  unfold Schedules.sortIn at hret
  cases hhead : (s.schedule p).triggers with
  | none =>
      simp only [hhead, Except.ok.injEq] at hret
      subst hret
      have hl := h.empty hhead
      refine h.push (by simp) (fun f => ?_) (fun f hf => ?_)
      · rw [offsetTime_setNext]
        exact h.offset f
      · rw [hl] at hf
        exact absurd hf List.not_mem_nil
  | some b =>
      obtain ⟨hb, hsmallest⟩ := h.head b hhead
      simp only [hhead, h.offset] at hret
      by_cases hlt : offsetTime t < offsetTime b
      · simp only [if_pos hlt, Except.ok.injEq] at hret
        subst hret
        refine h.push (by simp) (fun f => ?_) (fun f hf => hlt.le.trans (hsmallest f hf))
        show ((s.setNext t (some b)).trigger f).offsetTime = _
        rw [offsetTime_setNext]
        exact h.offset f
      · simp only [if_neg hlt] at hret
        obtain ⟨prev, _, hret⟩ := bind_eq_ok.mp hret
        simp only [pure_eq_ok, Except.ok.injEq] at hret
        subst hret
        refine ⟨?_, h.idle, fun hnone => ?_, fun c hc => ?_⟩
        · intro f
          rw [offsetTime_setNext, offsetTime_setNext]
          exact h.offset f
        · rw [setNext_schedule, setNext_schedule, hhead] at hnone
          exact absurd hnone (Option.some_ne_none b)
        · rw [setNext_schedule, setNext_schedule, hhead] at hc
          obtain rfl : b = c := Option.some.inj hc
          refine ⟨List.mem_append_left _ hb, fun f hf => ?_⟩
          rcases List.mem_append.mp hf with hf | hf
          · exact hsmallest f hf
          · rw [List.mem_singleton.mp hf]
            exact Nat.le_of_not_lt hlt

end Schedules

namespace Events

open Clock

variable {ε π θ : Type} [DecidableEq ε] [DecidableEq π] [DecidableEq θ] {s s₀ : Events ε π θ} {e : ε}
  {p : π} {q : List ε} {period offset : Nat} {offsetTime : θ → Nat} {ts : List θ}

theorem dequeueQueued_represents (hrep : s.clock.Represents q)
    (hmark : e ∈ q → s.clock.queued e = true) :
    ∃ clock, Returns (fun fuel => s.dequeueQueued fuel e) { s with clock := clock } ∧
      clock.Represents (q.erase e) ∧ clock.time = s.clock.time ∧
      clock.nextActivation_ms = s.clock.nextActivation_ms := by
  cases hqueued : s.clock.queued e with
  | true =>
      obtain ⟨clock, hret, hclock, htime, hact, _⟩ := dequeue_returns hrep e
      refine ⟨clock, ?_, hclock, htime, hact⟩
      simp only [Events.dequeueQueued, hqueued, if_true]
      exact hret.bind (returns_ok _)
  | false =>
      have he : e ∉ q := fun hmem => by
        rw [hmark hmem] at hqueued
        exact Bool.noConfusion hqueued
      refine ⟨s.clock, ?_, ?_, rfl, rfl⟩
      · simp only [Events.dequeueQueued, hqueued, Bool.false_eq_true, if_false]
        exact returns_ok s
      · rw [List.erase_of_not_mem he]
        exact hrep

theorem dequeueQueued_outside (hrep : s.clock.Represents q) (he : e ∉ q) (fuel : Nat) :
    s.dequeueQueued fuel e = .ok s := by
  simp only [Events.dequeueQueued, (hrep.outside e he).1, Bool.false_eq_true, if_false]

/-- The state in front of the start, behind the step of the schedule. -/
def readied (s : Events ε π θ) (e : ε) (period offset : Nat) (p : π) (schedules : Schedules π θ) :
    Events ε π θ :=
  { (s.setEvent e { s.event e with
    periodicSchedule := some p }).configurePeriodicTiming e period offset with
    schedules := schedules }

theorem setPeriodicSchedule_eq {schedules : Schedules π θ} {time : Nat} (fuel : Nat)
    (hrep : s.clock.Represents q) (he : e ∉ q) (htriggers : (s.schedules.schedule p).triggers ≠ none)
    (hstep : (s.schedules.configured p (configuredStart s.clock.time period offset)
      period).stepToNextTriggerOffset p = .ok (schedules, time)) :
    s.setPeriodicSchedule fuel e period offset p =
      if time < period then (s.readied e period offset p schedules).startAt fuel e time
      else (s.readied e period offset p schedules).stop fuel e := by
  let s₁ := s.setEvent e { s.event e with periodicSchedule := some p }
  let s₂ := (s₁.configurePeriodicTiming e period offset).schedules.configured p
    ((s₁.configurePeriodicTiming e period offset).clock.nextActivation_ms e) period
  have hact : (s₁.configurePeriodicTiming e period offset).clock.nextActivation_ms e =
      configuredStart s.clock.time period offset := Function.update_self _ _ _
  have hstep₂ : s₂.stepToNextTriggerOffset p = .ok (schedules, time) := by
    rw [← hstep, ← hact]
    rfl
  have hnonempty : (s₁.schedules.schedule p).triggers ≠ none := htriggers
  rw [Events.setPeriodicSchedule, dequeueQueued_outside hrep he, ok_bind, if_pos hnonempty]
  show (s₂.stepToNextTriggerOffset p >>= fun r =>
    let s : Events ε π θ := { s₁.configurePeriodicTiming e period offset with schedules := r.1 }
    if r.2 < period then s.startAt fuel e r.2 else s.stop fuel e) = _
  rw [hstep₂, ok_bind]
  rfl

/-- The event is queued for the next trigger if its time is below the period, or it is stopped. -/
theorem setPeriodicSchedule_returns {schedules : Schedules π θ} {time : Nat}
    (hrep : s.clock.Represents q) (hmark : e ∈ q → s.clock.queued e = true)
    (htriggers : (s.schedules.schedule p).triggers ≠ none) (hp : 0 < period)
    (hlt : time < period → time < 2 ^ 63) (hnow : s.clock.time < 2 ^ 63)
    (hstep : (s.schedules.configured p (configuredStart s.clock.time period offset)
      period).stepToNextTriggerOffset p = .ok (schedules, time)) :
    ∃ s' r, Returns (fun fuel => s.setPeriodicSchedule fuel e period offset p) s' ∧
      s'.schedules = schedules ∧ s'.clock.Represents r ∧ s'.clock.time = s.clock.time ∧
      s'.pushes = s.pushes ∧
      if time < period then
        r.Perm (e :: q.erase e) ∧ s'.event e = ⟨true, true, period, some p⟩ ∧
          s'.clock.nextActivation_ms e = time ∧ (s.clock.time < time → s'.clock.queued e = true)
      else r = q.erase e ∧ s'.event e = ⟨false, true, period, none⟩ := by
  obtain ⟨clock, hdequeue, hclock, htime, _⟩ := dequeueQueued_represents hrep hmark
  have he : e ∉ q.erase e := hrep.nodup.not_mem_erase
  let s₁ : Events ε π θ := { s with clock := clock }
  let s₃ := s₁.readied e period offset p schedules
  have hevent : s₃.event e = ⟨true, true, period, some p⟩ := by
    simp [s₃, s₁, readied, Events.configurePeriodicTiming, Events.setEvent, hp]
  have hclock₃ : s₃.clock.Represents (q.erase e) := hclock.setNextActivation he _
  have htime₃ : s₃.clock.time = s.clock.time := htime
  have hnow₃ : s₃.clock.time < 2 ^ 63 := lt_of_eq_of_lt htime₃ hnow
  rw [← htime] at hstep
  -- behind the removal from the queue the call goes on as for an event that was not queued
  have hcall : ∀ s' : Events ε π θ,
      Returns (fun fuel => if time < period then s₃.startAt fuel e time else s₃.stop fuel e) s' →
        Returns (fun fuel => s.setPeriodicSchedule fuel e period offset p) s' := by
    intro s' hret
    apply Returns.bind hdequeue
    apply hret.congr
    intro fuel
    rw [← setPeriodicSchedule_eq fuel (s := s₁) hclock he htriggers hstep, Events.setPeriodicSchedule,
      dequeueQueued_outside (s := s₁) hclock he, ok_bind]
  by_cases hin : time < period
  · obtain ⟨clock', wake, r, hret, hclock', hperm, htime', hact'⟩ :=
      hclock₃.startAt he (hlt hin) hnow₃
    let s' := { s₃ with clock := clock' }.emit (.wake wake)
    refine ⟨s', r, hcall s' ?_, rfl, hclock', htime'.trans htime₃, pushes_emit fun t => by simp, ?_⟩
    · simp only [if_pos hin]
      exact hret.bind (returns_ok _)
    · rw [if_pos hin]
      refine ⟨hperm, hevent, ?_, fun hlater => ?_⟩
      · show clock'.nextActivation_ms e = time
        rw [hact', Function.update_self]
      · exact hclock₃.startAt_queued he (hlt hin) (htime₃.symm ▸ hlater) hret
  · obtain ⟨clock', hret, hclock', htime', _⟩ := dequeue_returns hclock₃ e
    rw [List.erase_of_not_mem he] at hclock'
    let s' := { s₃ with clock := clock' }.setEvent e
      { s₃.event e with configured := false, periodicSchedule := none }
    refine ⟨s', _, hcall s' ?_, rfl, hclock', htime'.trans htime₃, rfl, ?_⟩
    · simp only [if_neg hin]
      apply Returns.bind (a := { s₃ with clock := clock' }) (hret.bind (returns_ok _))
      exact returns_ok _
    · rw [if_neg hin]
      refine ⟨rfl, ?_⟩
      show Function.update s₃.event e _ e = _
      rw [Function.update_self, hevent]

theorem run_add_headed (hoffset : ∀ t, (s₀.schedules.trigger t).offsetTime = offsetTime t)
    (hfresh : s₀.schedules.schedule p = .init) (h : Run Step s₀ (ts.map (.add p)) s) :
    Schedules.Headed offsetTime s.schedules p ts ∧ s.clock = s₀.clock := by
  induction ts using List.reverseRecOn generalizing s with
  | nil =>
      rw [← run_nil.mp h]
      refine ⟨⟨hoffset, ?_, fun _ => rfl, ?_⟩, rfl⟩
      · rw [hfresh]
        rfl
      · rw [hfresh]
        exact fun b hb => absurd hb (by simp [PeriodicScheduleImpl.init])
  | append_singleton ts t ih =>
      rw [List.map_append] at h
      obtain ⟨s₁, hrun, hstep⟩ := run_snoc.mp h
      obtain ⟨hheaded, hclock⟩ := ih hrun
      obtain ⟨fuel, hret⟩ := hstep.exists
      obtain ⟨schedules, hsort, hret⟩ := bind_eq_ok.mp hret
      simp only [pure_eq_ok, Except.ok.injEq] at hret
      subst hret
      exact ⟨hheaded.sortIn hsort, hclock⟩

/-- The first start of a schedule, with the trigger of the smallest offset. -/
theorem headed_setPeriodicSchedule {first : Nat} (hrep : s.clock.Represents q)
    (hmark : e ∈ q → s.clock.queued e = true) (hnow : s.clock.time < 2 ^ 63)
    (hheaded : Schedules.Headed offsetTime s.schedules p ts) (hfirst : first ∈ ts.map offsetTime)
    (hsmallest : ∀ t ∈ ts, first ≤ offsetTime t) (hp : 0 < period) (hperiod : period < 2 ^ 63)
    (hlt : configuredStart s.clock.time period offset + first < 2 ^ 63) :
    ∃ s' r, Step s (.setPeriodicSchedule e period offset p) s' ∧ s'.clock.Represents r ∧
      s'.clock.time = s.clock.time ∧
      if configuredStart s.clock.time period offset + first < period then
        e ∈ r ∧ s'.event e = ⟨true, true, period, some p⟩ ∧
          s'.clock.nextActivation_ms e = configuredStart s.clock.time period offset + first ∧
          (s.clock.time < configuredStart s.clock.time period offset + first →
            s'.clock.queued e = true)
      else e ∉ r := by
  obtain ⟨t, ht, hfirst⟩ := List.mem_map.mp hfirst
  generalize hstart : configuredStart s.clock.time period offset = start at hlt ⊢
  cases hhead : (s.schedules.schedule p).triggers with
  | none =>
      rw [hheaded.empty hhead] at ht
      exact absurd ht List.not_mem_nil
  | some b =>
      obtain ⟨hb, hle⟩ := hheaded.head b hhead
      have hbfirst : (s.schedules.trigger b).offsetTime = first := by
        rw [hheaded.offset]
        exact le_antisymm (hfirst ▸ hle t ht) (hsmallest b hb)
      have hend : (s.schedules.schedule p).activeTrigger.bind s.schedules.next = none := by
        rw [hheaded.idle]
        rfl
      have hstep := Schedules.configured_step hend hhead (by omega : start < 2 ^ 64)
        (by omega : period < 2 ^ 64)
      rw [hbfirst, Nat.mod_eq_of_lt (by omega), ← hstart] at hstep
      have htriggers : (s.schedules.schedule p).triggers ≠ none := by
        rw [hhead]
        exact Option.some_ne_none b
      obtain ⟨s', r, hret, _, hclock', htime', _, hqueued⟩ :=
        setPeriodicSchedule_returns hrep hmark htriggers hp (fun hin => hin.trans hperiod) hnow hstep
      rw [hstart] at hqueued
      refine ⟨s', r, hret, hclock', htime', ?_⟩
      by_cases hin : start + first < period
      · rw [if_pos hin] at hqueued ⊢
        obtain ⟨hperm, hevent, hact⟩ := hqueued
        exact ⟨hperm.symm.subset List.mem_cons_self, hevent, hact⟩
      · rw [if_neg hin] at hqueued ⊢
        rw [hqueued.1]
        exact hrep.nodup.not_mem_erase

/-- The event is queued for its first trigger exactly as the offset of this trigger asks for, if the
time of the trigger is below the period, or if the offset is not. -/
theorem setPeriodicSchedule_starts_iff {first : Nat} (hrep : s₀.clock.Represents q)
    (hmark : e ∈ q → s₀.clock.queued e = true) (hnow : s₀.clock.time < 2 ^ 63)
    (hoffset : ∀ t, (s₀.schedules.trigger t).offsetTime = offsetTime t)
    (hfresh : s₀.schedules.schedule p = .init) (hadd : Run Step s₀ (ts.map (.add p)) s)
    (hfirst : first ∈ ts.map offsetTime) (hsmallest : ∀ t ∈ ts, first ≤ offsetTime t)
    (hp : 0 < period) (hperiod : period < 2 ^ 63)
    (hlt : configuredStart s₀.clock.time period offset + first < 2 ^ 63) :
    ∃ s' r, Step s (.setPeriodicSchedule e period offset p) s' ∧ s'.clock.Represents r ∧
      (((e ∈ r ↔ first < period) ∧ (e ∈ r → s'.clock.nextActivation_ms e =
          configuredStart s₀.clock.time period offset + first)) ↔
        configuredStart s₀.clock.time period offset + first < period ∨ period ≤ first) := by
  obtain ⟨hheaded, hclock⟩ := run_add_headed hoffset hfresh hadd
  rw [← hclock] at hrep hmark hnow hlt ⊢
  obtain ⟨s', r, hstep, hrep', _, hqueued⟩ :=
    headed_setPeriodicSchedule hrep hmark hnow hheaded hfirst hsmallest hp hperiod hlt
  refine ⟨s', r, hstep, hrep', ?_⟩
  generalize configuredStart s.clock.time period offset = start at hqueued ⊢
  by_cases hin : start + first < period
  · rw [if_pos hin] at hqueued
    have hless : first < period := by omega
    exact iff_of_true ⟨iff_of_true hqueued.1 hless, fun _ => hqueued.2.2.1⟩ (Or.inl hin)
  · rw [if_neg hin] at hqueued
    constructor
    · intro h
      exact Or.inr (Nat.le_of_not_lt fun hless => hqueued (h.1.mpr hless))
    · intro h
      have hout : ¬ first < period := Nat.not_lt_of_le (h.resolve_left hin)
      exact ⟨iff_of_false hqueued hout, fun hmem => absurd hmem hqueued⟩

theorem add_one (offset : Nat) : ∃ s : Events ε Unit Nat,
    Run Step (init 0 fun _ => offset) ([0].map (.add ())) s := by
  have hlists : Schedules.Lists (fun _ => offset)
      (init 0 fun _ => offset : Events ε Unit Nat).schedules () [] := Schedules.lists_init ()
  obtain ⟨schedules, _, hret, _⟩ := hlists.sortIn (t := 0) List.not_mem_nil
  exact ⟨_, Run.start.next (hret.bind (returns_ok _))⟩

theorem setPeriodicSchedule_starts_iff_two : ∃ s s' r,
    Run Step (init 0 fun _ => 2 : Events Nat Unit Nat) ([0].map (.add ())) s ∧
    Step s (.setPeriodicSchedule 0 10 0 ()) s' ∧ s'.clock.Represents r ∧
      (((0 ∈ r ↔ 2 < 10) ∧ (0 ∈ r → s'.clock.nextActivation_ms 0 = configuredStart 0 10 0 + 2)) ↔
        configuredStart 0 10 0 + 2 < 10 ∨ 10 ≤ 2) := by
  obtain ⟨s, hadd⟩ := add_one (ε := Nat) 2
  obtain ⟨s', r, hstep, hrep, hiff⟩ := setPeriodicSchedule_starts_iff (e := 0)
    (represents_empty 0) (fun h => absurd h List.not_mem_nil) (by decide) (fun _ => rfl) rfl hadd
    (by decide : 2 ∈ [0].map fun _ => 2) (by decide) (by decide : 0 < 10) (by decide)
    (by decide : configuredStart 0 10 0 + 2 < 2 ^ 63)
  exact ⟨s, s', r, hadd, hstep, hrep, hiff⟩

/-- The trigger is due at 13 in the first period, and 13 is not below the period of 10. -/
theorem setPeriodicSchedule_notStarted : ∃ s s' r,
    Run Step (init 0 fun _ => 5 : Events Nat Unit Nat) ([0].map (.add ())) s ∧
    Step s (.setPeriodicSchedule 0 10 8 ()) s' ∧ s'.clock.Represents r ∧ ¬ (0 ∈ r ↔ 5 < 10) := by
  obtain ⟨s, hadd⟩ := add_one (ε := Nat) 5
  have hoffset : ∀ t, ((init 0 fun _ => 5 : Events Nat Unit Nat).schedules.trigger t).offsetTime = 5 :=
    fun _ => rfl
  obtain ⟨hheaded, hclock⟩ := run_add_headed hoffset rfl hadd
  have htime : s.clock.time = 0 := by rw [hclock]; rfl
  have hrep : s.clock.Represents [] := by
    rw [hclock]
    exact represents_empty 0
  have hstart : configuredStart s.clock.time 10 8 = 8 := by
    rw [htime]
    decide
  have hlt : configuredStart s.clock.time 10 8 + 5 < 2 ^ 63 := by
    rw [hstart]
    decide
  obtain ⟨s', r, hstep, hrep', _, hqueued⟩ := headed_setPeriodicSchedule (e := 0) hrep
    (fun h => absurd h List.not_mem_nil) (by rw [htime]; decide) hheaded (by decide) (by decide)
    (by decide) (by decide) hlt
  rw [hstart, if_neg (by decide)] at hqueued
  exact ⟨s, s', r, hadd, hstep, hrep', fun h => hqueued (h.mpr (by decide))⟩

end Events

end TaskingFramework
