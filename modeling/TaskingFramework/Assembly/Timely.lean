import TaskingFramework.Assembly.Assembly

/-!
# Events that are handled by several threads

Between the reading of an event and its next start the event stands in no queue, but in the hands of
one thread. In every run an event is in the queue, or in one hand, as long as its plan leaves a
handling; the number of handlings agrees with its plan however the threads interleave.
-/

set_option linter.unusedSectionVars false

namespace TaskingFramework

open Foundation

namespace Planned

open Clock Events

variable {η π θ : Type} [DecidableEq η] [DecidableEq π] [DecidableEq θ] {s : Events η π θ}
  {q : List η} {e : η}

theorem setPeriodicTiming_returns (period offset : Nat) (hrep : s.clock.Represents q) (he : e ∉ q)
    (hnow : s.clock.time < 2 ^ 63) (hp : 0 < period)
    (hlt : (Plan.periodic s.clock.time period offset).start < 2 ^ 63) :
    ∃ s' r, Returns (fun fuel => s.setPeriodicTiming fuel e period offset) s' ∧
      s'.event = Function.update s.event e ⟨true, true, period, none⟩ ∧
      s'.clock.Represents r ∧ r.Perm (e :: q) ∧ s'.clock.time = s.clock.time ∧
      s'.clock.nextActivation_ms = Function.update s.clock.nextActivation_ms e
        (Plan.periodic s.clock.time period offset).start ∧
      ∀ f, s'.handlings f = s.handlings f := by
  have hqueued := (hrep.outside e he).1
  let s₁ := s.configurePeriodicTiming e period offset
  let s₂ := s₁.setEvent e { s₁.event e with periodicSchedule := none }
  have hstart : s₂.clock.nextActivation_ms e = (Plan.periodic s.clock.time period offset).start := by
    rw [← configuredStart_eq hp hlt]
    exact Function.update_self e _ s.clock.nextActivation_ms
  have hrep₂ : s₂.clock.Represents q := hrep.setNextActivation he _
  obtain ⟨clock, wake, r, hret, hclock, hperm, htime, hact⟩ := hrep₂.startAt he hlt hnow
  let s₃ := { s₂ with clock := clock }.emit (.wake wake)
  refine ⟨s₃, r, ?_, ?_, hclock, hperm, htime, ?_, ?_⟩
  · simp only [Events.setPeriodicTiming, Events.dequeueQueued, hqueued, Bool.false_eq_true, if_false,
      ok_bind, Events.startAt]
    rw [← hstart] at hret
    exact hret.bind (returns_ok _)
  · simp [s₃, s₂, s₁, Events.emit, Events.setEvent, Events.configurePeriodicTiming, hp]
  · show clock.nextActivation_ms = _
    rw [hact]
    exact Function.update_idem _ _ s.clock.nextActivation_ms
  · intro f
    have hwake : s₃.handlings f = s₂.handlings f := handlings_emit _
    rw [hwake]
    rfl

end Planned

namespace Assembly

open Clock Events Planned

variable {η π θ τ σ ε γ ν : Type} [DecidableEq η] [DecidableEq π] [DecidableEq θ] [DecidableEq τ]
  [DecidableEq σ] [DecidableEq ε] [DecidableEq γ] [DecidableEq ν]
  {L : Layout τ σ ε γ} {associated : η → List (τ × Nat)} {s s' : Assembly η π θ τ σ ε γ ν}
  {action : AssemblyAction η τ ε ν} {q r : List η} {e f : η} {v w : ν}

/-- The events that still follow a plan are those of `r`: they stand in the queue `q`, or one thread
has read them. -/
structure Timely (s : Assembly η π θ τ σ ε γ ν) (q r : List η) : Prop where
  represents : s.planned.events.clock.Represents q
  now_lt : s.time < 2 ^ 63
  mem : ∀ e, e ∈ r ↔ e ∈ q ∨ ∃ v, s.handler v = .handling e
  notQueued : ∀ v e, s.handler v = .handling e → e ∉ q
  due : ∀ v e, s.handler v = .handling e → s.planned.events.clock.nextActivation_ms e ≤ s.time
  once : ∀ v w e, s.handler v = .handling e → s.handler w = .handling e → v = w
  unscheduled : ∀ e, (s.planned.events.event e).periodicSchedule = none
  unplanned : ∀ e, s.planned.plan e = none →
    s.planned.events.event e = .init ∧ e ∉ r ∧ s.planned.events.handlings e = 0
  planned : ∀ e p, s.planned.plan e = some p → Follows s.planned.events r e p

theorem timely_opened {t₀ : Nat} {offsetTime : θ → Nat} {inputs : τ → InputArray} {schedulers : List σ}
    (ht : t₀ < 2 ^ 63) : Timely (opened L t₀ offsetTime inputs schedulers : Assembly η π θ τ σ ε γ
      ν) [] [] where
  represents := represents_empty t₀
  now_lt := ht
  mem e := by simp [opened]
  notQueued _ _ _ := List.not_mem_nil
  due _ _ h := by simp [opened] at h
  once _ _ _ h := by simp [opened] at h
  unscheduled _ := rfl
  unplanned _ _ := ⟨rfl, List.not_mem_nil, rfl⟩
  planned _ _ h := by simp [opened, Planned.init] at h

private theorem Timely.congr (h : s.Timely q r) (hplanned : s'.planned = s.planned)
    (hhandler : ∀ v e, s'.handler v = .handling e ↔ s.handler v = .handling e) : s'.Timely q r := by
  have htime : s'.time = s.time := by rw [Assembly.time, Assembly.time, hplanned]
  constructor
  case represents => rw [hplanned]; exact h.represents
  case now_lt => rw [htime]; exact h.now_lt
  case mem =>
    intro e
    rw [h.mem e]
    simp only [hhandler]
  case notQueued => exact fun v e hv => h.notQueued v e ((hhandler v e).mp hv)
  case due =>
    intro v e hv
    rw [htime, hplanned]
    exact h.due v e ((hhandler v e).mp hv)
  case once => exact fun v w e hv hw => h.once v w e ((hhandler v e).mp hv) ((hhandler w e).mp hw)
  case unscheduled => rw [hplanned]; exact h.unscheduled
  case unplanned => rw [hplanned]; exact h.unplanned
  case planned => rw [hplanned]; exact h.planned

private theorem handling_setHandler {pc : HandlerPc η τ} (hold : ∀ e, s.handler v ≠ .handling e)
    (hnew : ∀ e, pc ≠ .handling e) (w : ν) (e : η) :
    (s.setHandler v pc).handler w = .handling e ↔ s.handler w = .handling e := by
  by_cases hw : w = v
  · subst hw
    simp [setHandler, hold e, hnew e]
  · simp [setHandler, hw]

private theorem Timely.update {p : Plan} {events : Events η π θ} {q' r' : List η} (h : s.Timely q r)
    (hrep : events.clock.Represents q') (hnow : events.clock.time = s.time)
    (hmem : ∀ f, f ∈ r' ↔ f ∈ q' ∨ ∃ w, s'.handler w = .handling f)
    (hhands : ∀ w f, s'.handler w = .handling f → s.handler w = .handling f ∧ f ≠ e ∧ (f ∈ q' → f ∈ q))
    (hevents : s'.planned.events = events)
    (hplan : s'.planned.plan = Function.update s.planned.plan e (some p))
    (hothers : ∀ f, f ≠ e → Untouched s.planned.events r events r' f)
    (hunscheduled : (events.event e).periodicSchedule = none) (hself : Follows events r' e p) :
    s'.Timely q' r' := by
  have htime : s'.time = s.time := by rw [Assembly.time, hevents, hnow]
  constructor
  case represents => rw [hevents]; exact hrep
  case now_lt => rw [htime]; exact h.now_lt
  case mem => exact hmem
  case notQueued =>
    intro w f hw hf
    obtain ⟨hold, _, hq⟩ := hhands w f hw
    exact h.notQueued w f hold (hq hf)
  case due =>
    intro w f hw
    obtain ⟨hold, hne, _⟩ := hhands w f hw
    rw [htime, hevents, (hothers f hne).activation]
    exact h.due w f hold
  case once => exact fun v w f hv hw => h.once v w f (hhands v f hv).1 (hhands w f hw).1
  case unscheduled =>
    intro f
    rw [hevents]
    by_cases hf : f = e
    · rw [hf]
      exact hunscheduled
    · rw [(hothers f hf).event]
      exact h.unscheduled f
  case unplanned =>
    intro f hnone
    rw [hplan] at hnone
    by_cases hf : f = e
    · rw [hf, Function.update_self] at hnone
      exact absurd hnone (by simp)
    · rw [Function.update_of_ne hf] at hnone
      rw [hevents, (hothers f hf).event, (hothers f hf).mem, (hothers f hf).handlings]
      exact h.unplanned f hnone
  case planned =>
    intro f p' hsome
    rw [hplan] at hsome
    rw [hevents]
    by_cases hf : f = e
    · rw [hf, Function.update_self] at hsome
      rw [hf, ← Option.some.inj hsome]
      exact hself
    · rw [Function.update_of_ne hf] at hsome
      exact (h.planned f p' hsome).untouched (hothers f hf) (ge_of_eq hnow)

private theorem Timely.plan {p : Plan} {events : Events η π θ} {q' : List η} (h : s.Timely q r)
    (hnone : s.planned.plan e = none) (hrep : events.clock.Represents q') (hperm : q'.Perm (e :: q))
    (hnow : events.clock.time = s.time)
    (hevent : ∀ f, f ≠ e → events.event f = s.planned.events.event f)
    (hact : ∀ f, f ≠ e → events.clock.nextActivation_ms f = s.planned.events.clock.nextActivation_ms f)
    (hhandlings : ∀ f, events.handlings f = s.planned.events.handlings f)
    (hunscheduled : (events.event e).periodicSchedule = none) (hself : Follows events (e :: r) e p) :
    Timely { s with planned := ⟨events, Function.update s.planned.plan e (some p)⟩ } q' (e :: r) := by
  have he := (h.unplanned e hnone).2.1
  refine h.update hrep hnow ?_ ?_ rfl rfl ?_ hunscheduled hself
  · intro f
    rw [List.mem_cons, hperm.mem_iff, List.mem_cons, h.mem f, or_assoc]
  · intro w f hw
    have hne : f ≠ e := fun heq => he ((h.mem e).mpr (Or.inr ⟨w, heq ▸ hw⟩))
    refine ⟨hw, hne, fun hf => ?_⟩
    exact (List.mem_cons.mp (hperm.subset hf)).resolve_left hne
  · intro f hf
    exact ⟨hevent f hf, by simp [hf], hact f hf, hhandlings f⟩

private theorem Timely.configure {c : PlannedCall η} {m : Planned η π θ} (h : s.Timely q r)
    (hc : ∀ span, c ≠ .tick span) (hm : s.planned.Step c m) :
    (∃ q' r', Timely { s with planned := m } q' r') ∧
      ∀ f, m.events.handlings f = s.planned.events.handlings f := by
  obtain ⟨hlegal, hret⟩ := hm
  cases c with
  | tick span => exact absurd rfl (hc span)
  | setPeriodicTiming e period offset =>
      obtain ⟨hnone, hp, hlt⟩ := hlegal
      obtain ⟨hinit, he, hzero⟩ := h.unplanned e hnone
      have heq : e ∉ q := fun hq => he ((h.mem e).mpr (Or.inl hq))
      obtain ⟨events, q', hret', hevent, hrep, hperm, htime, hact, hhandlings⟩ :=
        setPeriodicTiming_returns period offset h.represents heq h.now_lt hp hlt
      obtain rfl := hret.unique (hret'.bind (returns_ok _))
      refine ⟨⟨q', e :: r, h.plan hnone hrep hperm htime ?_ ?_ hhandlings ?_ ?_⟩, hhandlings⟩
      · intro f hf
        rw [hevent, Function.update_of_ne hf]
      · intro f hf
        rw [hact, Function.update_of_ne hf]
      · rw [hevent, Function.update_self]
      · unfold Follows
        rw [hevent, hact, hhandlings, hzero, Function.update_self, Function.update_self]
        refine ⟨hp, rfl, rfl, List.mem_cons_self, by simp, ?_⟩
        exact fun k hk => absurd hk (Nat.not_lt_zero k)
  | trigger e delay =>
      obtain ⟨hnone, hdelay, hlt⟩ := hlegal
      obtain ⟨hinit, he, hzero⟩ := h.unplanned e hnone
      have heq : e ∉ q := fun hq => he ((h.mem e).mpr (Or.inl hq))
      have hconfigured : (s.planned.events.event e).configured = false := by
        rw [hinit]
        rfl
      obtain ⟨events, q', hret', hevent, hrep, hperm, htime, hact, hhandlings⟩ :=
        trigger_delayed delay h.represents heq hconfigured hdelay hlt
      obtain rfl := hret.unique (hret'.bind (returns_ok _))
      refine ⟨⟨q', e :: r, h.plan hnone hrep hperm htime ?_ ?_ hhandlings ?_ ?_⟩, hhandlings⟩
      · intro f _
        rw [hevent]
      · intro f hf
        rw [hact, Function.update_of_ne hf]
      · rw [hevent]
        exact h.unscheduled e
      · unfold Follows
        rw [hevent, hact, hhandlings, hzero, Function.update_self, hinit]
        exact ⟨rfl, Or.inl ⟨rfl, List.mem_cons_self, rfl⟩⟩

private theorem Timely.advance {span : Nat} (h : s.Timely q r) (hspan : s.time + span < 2 ^ 63) :
    (s.setClock { s.planned.events.clock with time := s.time + span }).Timely q r := by
  have hle : s.time ≤ s.time + span := Nat.le_add_right _ _
  refine ⟨h.represents.advance hle, hspan, h.mem, h.notQueued, ?_, h.once, h.unscheduled,
    h.unplanned, ?_⟩
  · intro v e hv
    exact (h.due v e hv).trans hle
  · intro e p hplan
    exact (h.planned e p hplan).untouched ⟨rfl, Iff.rfl, rfl, rfl⟩ hle

/-- The event goes from the queue into the hands of the thread. -/
theorem Timely.read {clock : Clock η} (h : s.Timely q r) (hv : s.handler v = .idle)
    (hret : Returns (fun fuel => s.planned.events.clock.readFirstPending fuel) (clock, some e)) :
    (∃ q', ((s.setClock clock).setHandler v (.handling e)).Timely q' r) ∧ clock.time = s.time := by
  cases q with
  | nil =>
      obtain ⟨_, hfalse⟩ := Prod.mk.inj (hret.unique (readFirstPending_none h.represents (by simp)))
      cases hfalse
  | cons a q =>
      by_cases ha : s.planned.events.clock.nextActivation_ms a ≤ s.time
      · obtain ⟨clock', hret', hrep, htime, hact, _⟩ := readFirstPending_due h.represents ha
        obtain ⟨rfl, hsome⟩ := Prod.mk.inj (hret.unique hret')
        obtain rfl : e = a := Option.some.inj hsome
        obtain ⟨he, hnodup⟩ := List.nodup_cons.mp h.represents.nodup
        -- no thread has read the event before
        have hfresh : ∀ w, s.handler w ≠ .handling e :=
          fun w hw => h.notQueued w e hw List.mem_cons_self
        have hhand : ∀ w f, ((s.setClock clock).setHandler v (.handling e)).handler w = .handling f ↔
            w = v ∧ f = e ∨ s.handler w = .handling f := by
          intro w f
          by_cases hw : w = v
          · subst hw
            simp [setHandler, setClock, hv, eq_comm]
          · simp [setHandler, setClock, setEvents, hw]
        have htime' : ((s.setClock clock).setHandler v (.handling e)).time = s.time := htime
        refine ⟨⟨q, hrep, lt_of_eq_of_lt htime' h.now_lt, ?_, ?_, ?_, ?_, h.unscheduled,
          h.unplanned, ?_⟩, htime⟩
        · intro f
          rw [h.mem f, List.mem_cons]
          simp only [hhand]
          constructor
          · rintro ((rfl | hf) | ⟨w, hw⟩)
            · exact Or.inr ⟨v, Or.inl ⟨rfl, rfl⟩⟩
            · exact Or.inl hf
            · exact Or.inr ⟨w, Or.inr hw⟩
          · rintro (hf | ⟨w, ⟨_, rfl⟩ | hw⟩)
            · exact Or.inl (Or.inr hf)
            · exact Or.inl (Or.inl rfl)
            · exact Or.inr ⟨w, hw⟩
        · intro w f hw
          rcases (hhand w f).mp hw with ⟨_, rfl⟩ | hw
          · exact he
          · exact fun hf => h.notQueued w f hw (List.mem_cons_of_mem e hf)
        · intro w f hw
          rw [htime']
          show clock.nextActivation_ms f ≤ s.time
          rw [hact]
          rcases (hhand w f).mp hw with ⟨_, rfl⟩ | hw
          · exact ha
          · exact h.due w f hw
        · intro w x f hw hx
          rcases (hhand w f).mp hw with ⟨rfl, rfl⟩ | hwold
          · rcases (hhand x f).mp hx with ⟨rfl, _⟩ | hxold
            · rfl
            · exact absurd hxold (hfresh x)
          · rcases (hhand x f).mp hx with ⟨_, rfl⟩ | hxold
            · exact absurd hwold (hfresh w)
            · exact h.once w x f hwold hxold
        · intro f p hplan
          exact (h.planned f p hplan).untouched ⟨rfl, Iff.rfl, congrFun hact f, rfl⟩ (ge_of_eq htime)
      · have hlater : ∀ x ∈ (a :: q).head?, s.planned.events.clock.time <
            s.planned.events.clock.nextActivation_ms x := by
          intro x hx
          obtain rfl : a = x := Option.some.inj hx
          exact Nat.lt_of_not_le ha
        obtain ⟨_, hfalse⟩ := Prod.mk.inj (hret.unique (readFirstPending_none h.represents hlater))
        cases hfalse

theorem shallFire_of_unscheduled {events : Events η π θ}
    (h : (events.event e).periodicSchedule = none) :
    events.shallFire e = true := by
  rw [shallFire, h]
  rfl

/-- A periodic event goes back into the queue, any other one is done. -/
theorem Timely.handle {events : Events η π θ} (h : s.Timely q r) (associated : η → List (τ × Nat))
    (hv : s.handler v = .handling e)
    (hnext : (s.planned.events.event e).periodical = true →
      s.planned.events.clock.nextActivation_ms e + (s.planned.events.event e).period_ms < 2 ^ 63)
    (hret : Returns (fun fuel => s.planned.events.handle fuel e) events) :
    (∃ q' r', ((s.setEvents events).setHandler v (.pushing (associated e))).Timely q' r') ∧
      events.shallFire e = true ∧ events.clock.time = s.time ∧
      ∀ f, events.handlings f = s.planned.events.handlings f + if e = f then 1 else 0 := by
  have her : e ∈ r := (h.mem e).mpr (Or.inr ⟨v, hv⟩)
  have heq : e ∉ q := h.notQueued v e hv
  have hdue := h.due v e hv
  have hhand : ∀ w f, ((s.setEvents events).setHandler v (.pushing (associated e))).handler w =
    .handling f ↔
      s.handler w = .handling f ∧ f ≠ e := by
    intro w f
    by_cases hw : w = v
    · subst hw
      simp [setHandler, hv, eq_comm]
    · have hother : s.handler w = .handling f → f ≠ e :=
        fun hwf heqf => hw (h.once w v e (heqf ▸ hwf) hv)
      simp only [setHandler, setEvents, Function.update_of_ne hw]
      exact ⟨fun hwf => ⟨hwf, hother hwf⟩, fun hwf => hwf.1⟩
  obtain ⟨p, hplan⟩ : ∃ p, s.planned.plan e = some p := by
    cases hplan : s.planned.plan e with
    | none => exact absurd her (h.unplanned e hplan).2.1
    | some p => exact ⟨p, rfl⟩
  have hsame : s.planned.plan = Function.update s.planned.plan e (some p) := by
    rw [← hplan]
    exact (Function.update_eq_self e s.planned.plan).symm
  have hfollows := h.planned e p hplan
  cases p with
  | periodic now period offset =>
      obtain ⟨hp, hperiodical, hperiod, _⟩ := hfollows
      obtain ⟨events', q', hret', hevent, hrep, hperm, htime, hact, hhandlings⟩ :=
        handle_periodical h.represents heq (h.unscheduled e) hperiodical h.now_lt (hnext hperiodical)
      obtain rfl := hret.unique hret'
      have hunscheduled : (events.event e).periodicSchedule = none := hevent ▸ h.unscheduled e
      refine ⟨⟨q', r, ?_⟩, shallFire_of_unscheduled hunscheduled, htime, hhandlings⟩
      refine h.update hrep htime ?_ ?_ rfl hsame ?_ hunscheduled ?_
      · intro f
        rw [h.mem f, hperm.mem_iff, List.mem_cons]
        simp only [hhand]
        constructor
        · rintro (hf | ⟨w, hw⟩)
          · exact Or.inl (Or.inr hf)
          · by_cases hfe : f = e
            · exact Or.inl (Or.inl hfe)
            · exact Or.inr ⟨w, hw, hfe⟩
        · rintro ((rfl | hf) | ⟨w, hw, _⟩)
          · exact Or.inr ⟨v, hv⟩
          · exact Or.inl hf
          · exact Or.inr ⟨w, hw⟩
      · intro w f hw
        obtain ⟨hwf, hne⟩ := (hhand w f).mp hw
        exact ⟨hwf, hne, fun hf => (List.mem_cons.mp (hperm.subset hf)).resolve_left hne⟩
      · intro f hf
        refine ⟨congrFun hevent f, Iff.rfl, ?_, ?_⟩
        · rw [hact, Function.update_of_ne hf]
        · rw [hhandlings, if_neg (Ne.symm hf), Nat.add_zero]
      · apply (h.planned e _ hplan).handled_periodic hdue hevent htime her
        · rw [hact, Function.update_self]
        · rw [hhandlings, if_pos rfl]
  | once now delay =>
      obtain ⟨hperiodical, hcases⟩ := hfollows
      obtain ⟨hzero, _, hstart⟩ := hcases.resolve_right fun hover => hover.2.1 her
      obtain ⟨events', hret', hevent, hclock, hhandlings⟩ := handle_once (h.unscheduled e) hperiodical
      obtain rfl := hret.unique hret'
      have hrep : events.clock.Represents q := hclock ▸ h.represents
      have htime : events.clock.time = s.time := congrArg Clock.time hclock
      have hunscheduled : (events.event e).periodicSchedule = none := hevent ▸ h.unscheduled e
      refine ⟨⟨q, r.filter fun f => decide (f ≠ e), ?_⟩, shallFire_of_unscheduled hunscheduled, htime,
        hhandlings⟩
      refine h.update hrep htime ?_ ?_ rfl hsame ?_ hunscheduled ?_
      · intro f
        rw [List.mem_filter, h.mem f]
        simp only [hhand, decide_eq_true_eq]
        constructor
        · rintro ⟨hf | ⟨w, hw⟩, hne⟩
          · exact Or.inl hf
          · exact Or.inr ⟨w, hw, hne⟩
        · rintro (hf | ⟨w, hw, hne⟩)
          · exact ⟨Or.inl hf, fun hfe => heq (hfe ▸ hf)⟩
          · exact ⟨Or.inr ⟨w, hw⟩, hne⟩
      · intro w f hw
        obtain ⟨hwf, hne⟩ := (hhand w f).mp hw
        exact ⟨hwf, hne, id⟩
      · intro f hf
        refine ⟨congrFun hevent f, by simp [hf], by rw [hclock], ?_⟩
        rw [hhandlings, if_neg (Ne.symm hf), Nat.add_zero]
      · unfold Follows
        rw [hevent, hhandlings, if_pos rfl, hzero, hclock]
        exact ⟨hperiodical, Or.inr ⟨rfl, by simp, hstart ▸ hdue⟩⟩

/-- The event that is handled in the step. -/
def handles : AssemblyAction η τ ε ν → Option η
  | .handle _ e => some e
  | .configure _ | .advance _ | .readFirstPending _ _ | .notify _ _ _ | .pushed _ | .act _ => none

theorem Timely.step (h : s.Timely q r) (hstep : Step L associated s action s') :
    (∃ q' r', s'.Timely q' r') ∧ ∀ f, s'.planned.events.handlings f =
      s.planned.events.handlings f + if handles action = some f then 1 else 0 := by
  cases hstep with
  | configure hc hm => exact h.configure hc hm
  | advance hspan => exact ⟨⟨q, r, h.advance hspan⟩, fun _ => rfl⟩
  | readFirstPending hv _ hret =>
      obtain ⟨⟨q', hread⟩, _⟩ := h.read hv hret
      exact ⟨⟨q', r, hread⟩, fun _ => rfl⟩
  | handle hv hnext hret =>
      obtain ⟨htimely, hfire, _, hhandlings⟩ := h.handle associated hv hnext hret
      rw [if_pos hfire]
      refine ⟨htimely, fun f => ?_⟩
      rw [show handles _ = some _ from rfl]
      simp only [Option.some.injEq]
      exact hhandlings f
  | notify hv _ =>
      exact ⟨⟨q, r, h.congr rfl (handling_setHandler (by simp [hv]) (by simp))⟩, fun _ => rfl⟩
  | pushed hv _ =>
      exact ⟨⟨q, r, h.congr rfl (handling_setHandler (by simp [hv]) (by simp))⟩, fun _ => rfl⟩
  | act _ _ => exact ⟨⟨q, r, h.congr rfl fun _ _ => Iff.rfl⟩, fun _ => rfl⟩

/-- With no event in hand and none pending every event was handled as often as its plan says. -/
theorem Timely.settled (h : s.Timely q r) (hidle : ∀ v e, s.handler v ≠ .handling e)
    (hpending : s.planned.events.clock.isPending = false) {p : Plan}
    (hplan : s.planned.plan e = some p) :
    s.planned.events.handlings e = p.handlings s.time := by
  have hmem : ∀ f, f ∈ q ↔ f ∈ r := by
    intro f
    rw [h.mem f]
    exact ⟨Or.inl, fun hor => hor.resolve_right fun ⟨v, hv⟩ => hidle v f hv⟩
  have hontime : OnTime s.planned.plan s.planned.events q := by
    refine ⟨h.represents, h.unscheduled, ?_, ?_⟩
    · intro f hnone
      rw [hmem f]
      exact h.unplanned f hnone
    · intro f p hsome
      exact (h.planned f p hsome).untouched ⟨rfl, hmem f, rfl, rfl⟩ le_rfl
  have hnone : ∀ f ∈ q, s.planned.events.clock.time < s.planned.events.clock.nextActivation_ms f := by
    apply h.represents.not_due
    intro f hf
    have hhead : s.planned.events.clock.queueHead = some f := (Chain.head h.represents.chain).trans hf
    rw [Clock.isPending, hhead] at hpending
    simpa using hpending
  exact (hontime.settled hnone).handlings e p hplan

end Assembly

end TaskingFramework
