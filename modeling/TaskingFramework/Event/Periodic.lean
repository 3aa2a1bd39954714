import TaskingFramework.Event.Drain
import Mathlib.Order.Bounds.Basic

/-!
# Periodic events

Every event is configured once, for a periodic timing or a single delay, and its plan is kept beside the
events. Time goes forward by ticks, each with one run of `handleEvents`. Behind a tick every event has
been handled as often as its plan says, however many periods the tick has jumped over.
-/

set_option linter.unusedSectionVars false

namespace TaskingFramework

open Foundation

/-- The configuration of an event, with the time at which it was made. -/
inductive Plan where
  | periodic (now period offset : Nat)
  | once (now delay : Nat)
  deriving DecidableEq, Repr

namespace Plan

def start : Plan → Nat
  | .periodic now period offset => if offset < now then nextPeriod offset period now else offset
  | .once now delay => now + delay

/-- The number of handlings up to the time `t`. -/
def handlings (t : Nat) : Plan → Nat
  | .periodic now period offset =>
      let start := (periodic now period offset).start
      if t < start then 0 else (t - start) / period + 1
  | .once now delay => if t < now + delay then 0 else 1

/-- The time of the first handling behind the time `t`, if there is one. -/
def following (t : Nat) : Plan → Nat
  | .periodic now period offset =>
      (periodic now period offset).start + (periodic now period offset).handlings t * period
  | .once now delay => now + delay

end Plan

/-- The first start of a periodic timing that is configured at the time `now`. -/
def FirstStart (now period offset start : Nat) : Prop :=
  (now ≤ offset → start = offset) ∧
    (offset < now → IsLeast {t | now < t ∧ ∃ m, t = offset + m * period} start)

private theorem firstStart_start {now period offset : Nat} (hp : 0 < period) :
    FirstStart now period offset (Plan.periodic now period offset).start := by
  constructor
  · intro h
    exact if_neg (not_lt_of_ge h)
  · intro h
    rw [show (Plan.periodic now period offset).start = nextPeriod offset period now from if_pos h]
    refine ⟨⟨lt_nextPeriod hp (le_of_lt h), (now - offset) / period + 1, rfl⟩, ?_⟩
    rintro t ⟨hnow, m, rfl⟩
    have hlt : now - offset < m * period := by omega
    have hm : (now - offset) / period + 1 ≤ m := (Nat.div_lt_iff_lt_mul hp).mpr hlt
    exact Nat.add_le_add_left (Nat.mul_le_mul_right period hm) offset

/-- The handlings up to a time are those whose start is not later. -/
theorem lt_handlings {now period offset t k : Nat} (hp : 0 < period) :
    k < (Plan.periodic now period offset).handlings t ↔
      (Plan.periodic now period offset).start + k * period ≤ t := by
  unfold Plan.handlings
  simp only
  generalize (Plan.periodic now period offset).start = start
  split
  · constructor
    · intro h
      exact absurd h (Nat.not_lt_zero k)
    · intro h
      omega
  · rw [Nat.lt_succ_iff, Nat.le_div_iff_mul_le hp]
    omega

private theorem handlings_eq {now period offset t n : Nat} (hp : 0 < period)
    (hover : ∀ k < n, (Plan.periodic now period offset).start + k * period ≤ t)
    (hnext : t < (Plan.periodic now period offset).start + n * period) :
    n = (Plan.periodic now period offset).handlings t := by
  apply le_antisymm
  · by_contra hlt
    have hn := (lt_handlings hp).mpr (hover _ (lt_of_not_ge hlt))
    exact absurd hn (lt_irrefl _)
  · by_contra hlt
    have hn := (lt_handlings hp).mp (lt_of_not_ge hlt)
    omega

/-- Events with the plans by which they were configured. -/
structure Planned (ε π θ : Type) where
  events : Events ε π θ
  plan : ε → Option Plan

inductive PlannedCall (ε : Type) where
  | setPeriodicTiming (event : ε) (period offset : Nat)
  | trigger (event : ε) (delay : Nat)
  | tick (span : Nat)
  deriving DecidableEq, Repr

namespace Planned

open Clock Events

variable {ε π θ : Type} [DecidableEq ε] [DecidableEq π] [DecidableEq θ]
  {m m' : Planned ε π θ} {s s' : Events ε π θ} {q r : List ε} {e f : ε} {plan : Plan} {t : Nat}

def init (time : Nat) (offsetTime : θ → Nat) : Planned ε π θ :=
  ⟨Events.init time offsetTime, fun _ => none⟩

def perform (fuel : Nat) (m : Planned ε π θ) : PlannedCall ε → Outcome (Planned ε π θ)
  | .setPeriodicTiming e period offset => do
      let s ← m.events.perform fuel (.setPeriodicTiming e period offset)
      return ⟨s, Function.update m.plan e (some (.periodic m.events.clock.time period offset))⟩
  | .trigger e delay => do
      let s ← m.events.perform fuel (.trigger e delay)
      return ⟨s, Function.update m.plan e (some (.once m.events.clock.time delay))⟩
  | .tick span => do
      let s ← m.events.perform fuel (.advance span)
      let s ← s.perform fuel .handleEvents
      return ⟨s, m.plan⟩

/-- An event is configured once, and all times that are reached are below the sign bit. -/
def Legal (m : Planned ε π θ) : PlannedCall ε → Prop
  | .setPeriodicTiming e period offset => m.plan e = none ∧ 0 < period ∧
      (Plan.periodic m.events.clock.time period offset).start < 2 ^ 63
  | .trigger e delay => m.plan e = none ∧ 0 < delay ∧ m.events.clock.time + delay < 2 ^ 63
  | .tick span => m.events.clock.time + span < 2 ^ 63 ∧
      ∀ e plan, m.plan e = some plan → plan.following (m.events.clock.time + span) < 2 ^ 63

def Step (m : Planned ε π θ) (c : PlannedCall ε) (m' : Planned ε π θ) : Prop :=
  m.Legal c ∧ Returns (fun fuel => m.perform fuel c) m'

/-- The event follows its plan. -/
def Follows (s : Events ε π θ) (q : List ε) (e : ε) : Plan → Prop
  | .periodic now period offset => 0 < period ∧ (s.event e).periodical = true ∧
      (s.event e).period_ms = period ∧ e ∈ q ∧
      s.clock.nextActivation_ms e =
        (Plan.periodic now period offset).start + s.handlings e * period ∧
      ∀ k < s.handlings e, (Plan.periodic now period offset).start + k * period ≤ s.clock.time
  | .once now delay => (s.event e).periodical = false ∧
      (s.handlings e = 0 ∧ e ∈ q ∧ s.clock.nextActivation_ms e = now + delay ∨
        s.handlings e = 1 ∧ e ∉ q ∧ now + delay ≤ s.clock.time)

structure OnTime (plan : ε → Option Plan) (s : Events ε π θ) (q : List ε) : Prop where
  represents : s.clock.Represents q
  unscheduled : ∀ e, (s.event e).periodicSchedule = none
  unplanned : ∀ e, plan e = none → s.event e = .init ∧ e ∉ q ∧ s.handlings e = 0
  planned : ∀ e p, plan e = some p → Follows s q e p

/-- Nothing has happened to the event `f`. -/
structure Untouched (s : Events ε π θ) (q : List ε) (s' : Events ε π θ) (r : List ε) (f : ε) :
    Prop where
  event : s'.event f = s.event f
  mem : f ∈ r ↔ f ∈ q
  activation : s'.clock.nextActivation_ms f = s.clock.nextActivation_ms f
  handlings : s'.handlings f = s.handlings f

theorem Follows.untouched {p : Plan} (h : Follows s q f p) (hf : Untouched s q s' r f)
    (htime : s.clock.time ≤ s'.clock.time) : Follows s' r f p := by
  cases p with
  | periodic now period offset =>
      obtain ⟨hp, hperiodical, hperiod, hq, hnext, hover⟩ := h
      unfold Follows
      rw [hf.event, hf.activation, hf.handlings]
      exact ⟨hp, hperiodical, hperiod, hf.mem.mpr hq, hnext, fun k hk => (hover k hk).trans htime⟩
  | once now delay =>
      obtain ⟨hperiodical, hcases⟩ := h
      unfold Follows
      rw [hf.event, hf.activation, hf.handlings, hf.mem]
      refine ⟨hperiodical, hcases.imp_right fun hover => ?_⟩
      exact ⟨hover.1, hover.2.1, hover.2.2.trans htime⟩

private theorem OnTime.update {plan : ε → Option Plan} {p : Plan} (h : OnTime plan s q)
    (hrep : s'.clock.Represents r) (htime : s.clock.time ≤ s'.clock.time)
    (hothers : ∀ f, f ≠ e → Untouched s q s' r f) (hunscheduled : (s'.event e).periodicSchedule = none)
    (hself : Follows s' r e p) : OnTime (Function.update plan e (some p)) s' r := by
  refine ⟨hrep, ?_, ?_, ?_⟩
  · intro f
    by_cases hf : f = e
    · rw [hf]
      exact hunscheduled
    · rw [(hothers f hf).event]
      exact h.unscheduled f
  · intro f hnone
    by_cases hf : f = e
    · rw [hf, Function.update_self] at hnone
      exact absurd hnone (by simp)
    · rw [Function.update_of_ne hf] at hnone
      have hsame := hothers f hf
      rw [hsame.event, hsame.mem, hsame.handlings]
      exact h.unplanned f hnone
  · intro f p' hsome
    by_cases hf : f = e
    · rw [hf, Function.update_self] at hsome
      rw [hf, ← Option.some.inj hsome]
      exact hself
    · rw [Function.update_of_ne hf] at hsome
      exact (h.planned f p' hsome).untouched (hothers f hf) htime

/-- An event that is due, of a plan whose times are below the sign bit, is restarted below it. -/
theorem Follows.restart_lt {now period offset : Nat}
    (h : Follows s q e (.periodic now period offset))
    (hdue : s.clock.nextActivation_ms e ≤ s.clock.time)
    (hbound : (Plan.periodic now period offset).following s.clock.time < 2 ^ 63) :
    s.clock.nextActivation_ms e + (s.event e).period_ms < 2 ^ 63 := by
  obtain ⟨hp, _, hperiod, _, hnext, _⟩ := h
  rw [hnext] at hdue ⊢
  rw [hperiod, Nat.add_assoc, ← Nat.succ_mul]
  have hlt := (lt_handlings hp).mpr hdue
  have hmul := Nat.mul_le_mul_right period (Nat.succ_le_of_lt hlt)
  exact lt_of_le_of_lt (Nat.add_le_add_left hmul _) hbound

/-- The event that was handled follows its plan further, periodically or not at all. -/
theorem Follows.handled_periodic {now period offset : Nat}
    (h : Follows s q e (.periodic now period offset))
    (hdue : s.clock.nextActivation_ms e ≤ s.clock.time) (hevent : s'.event = s.event)
    (htime : s'.clock.time = s.clock.time) (hmem : e ∈ r)
    (hact : s'.clock.nextActivation_ms e = s.clock.nextActivation_ms e + (s.event e).period_ms)
    (hhandlings : s'.handlings e = s.handlings e + 1) :
    Follows s' r e (.periodic now period offset) := by
  obtain ⟨hp, hperiodical, hperiod, _, hnext, hover⟩ := h
  unfold Follows
  rw [hevent, htime, hact, hhandlings, hnext, hperiod]
  refine ⟨hp, hperiodical, rfl, hmem, ?_, ?_⟩
  · rw [Nat.add_assoc, ← Nat.succ_mul]
  · intro k hk
    rcases Nat.lt_succ_iff_lt_or_eq.mp hk with hk | rfl
    · exact hover k hk
    · rw [← hnext]
      exact hdue

private theorem OnTime.handles {plan : ε → Option Plan} (h : OnTime plan s (e :: q))
    (hdue : s.clock.nextActivation_ms e ≤ s.clock.time) (hnow : s.clock.time < 2 ^ 63)
    (hbound : ∀ e p, plan e = some p → p.following s.clock.time < 2 ^ 63) :
    Handles (OnTime plan) s e q := by
  intro clock hclock htime hact
  have he : e ∉ q := (List.nodup_cons.mp h.represents.nodup).1
  let s₁ : Events ε π θ := { s with clock := clock }
  have hnext : s₁.clock.nextActivation_ms = s.clock.nextActivation_ms := hact
  cases hplan : plan e with
  | none => exact absurd List.mem_cons_self (h.unplanned e hplan).2.1
  | some p =>
      have hfollows := h.planned e p hplan
      have hsame : Function.update plan e (some p) = plan := by
        rw [← hplan]
        exact Function.update_eq_self e plan
      cases p with
      | periodic now period offset =>
          have hlt := hfollows.restart_lt hdue (hbound e _ hplan)
          obtain ⟨hp, hperiodical, hperiod, _⟩ := hfollows
          obtain ⟨s', r, hret, hevent, hrep, hperm, htime', hact', hhandlings⟩ :=
            handle_periodical (s := s₁) hclock he (h.unscheduled e) hperiodical
              (lt_of_eq_of_lt htime hnow) (by rw [hnext]; exact hlt)
          rw [hnext] at hact'
          have hnow' : s'.clock.time = s.clock.time := htime'.trans htime
          refine ⟨s', r, hret, ?_, hnow', ?_⟩
          · rw [← hsame]
            apply h.update hrep hnow'.ge
            · intro f hf
              refine ⟨congrFun hevent f, hperm.mem_iff, ?_, ?_⟩
              · rw [hact', Function.update_of_ne hf]
              · rw [hhandlings, if_neg (Ne.symm hf)]
                rfl
            · rw [hevent]
              exact h.unscheduled e
            · apply (h.planned e _ hplan).handled_periodic hdue hevent hnow'
              · exact hperm.mem_iff.mpr List.mem_cons_self
              · rw [hact', Function.update_self]
              · rw [hhandlings, if_pos rfl]
                rfl
          · apply lateness_later he hperm hnow' hact' hdue
            show s.clock.nextActivation_ms e < s.clock.nextActivation_ms e + (s.event e).period_ms
            omega
      | once now delay =>
          obtain ⟨hperiodical, hcases⟩ := hfollows
          obtain ⟨hzero, _, hstart⟩ :=
            hcases.resolve_right fun hover => hover.2.1 List.mem_cons_self
          obtain ⟨s', hret, hevent, hclock', hhandlings⟩ :=
            handle_once (s := s₁) (h.unscheduled e) hperiodical
          have hclock₁ : s'.clock = clock := hclock'
          have hnow' : s'.clock.time = s.clock.time := by rw [hclock₁, htime]
          have hact' : s'.clock.nextActivation_ms = s.clock.nextActivation_ms := by
            rw [hclock₁, hact]
          refine ⟨s', q, hret, ?_, hnow', ?_⟩
          · rw [← hsame]
            apply h.update (by rw [hclock₁]; exact hclock) hnow'.ge
            · intro f hf
              refine ⟨congrFun hevent f, by simp [hf], congrFun hact' f, ?_⟩
              rw [hhandlings, if_neg (Ne.symm hf)]
              rfl
            · rw [hevent]
              exact h.unscheduled e
            · refine ⟨by rw [hevent]; exact hperiodical, Or.inr ⟨?_, he, ?_⟩⟩
              · rw [hhandlings, if_pos rfl]
                show s.handlings e + 1 = 1
                rw [hzero]
              · rw [hnow', ← hstart]
                exact hdue
          · rw [lateness_congr (q := q) hnow' fun _ _ => by rw [hact']]
            exact lateness_leave hdue

/-- No event of the queue is due, and every event has been handled as often as its plan says. -/
structure Settled (plan : ε → Option Plan) (s : Events ε π θ) (q : List ε) : Prop where
  notDue : ∀ e ∈ q, s.clock.time < s.clock.nextActivation_ms e
  handlings : ∀ e p, plan e = some p → s.handlings e = p.handlings s.clock.time

theorem OnTime.settled {plan : ε → Option Plan} (h : OnTime plan s q)
    (hnone : ∀ e ∈ q, s.clock.time < s.clock.nextActivation_ms e) : Settled plan s q := by
  refine ⟨hnone, fun e p hplan => ?_⟩
  have hfollows := h.planned e p hplan
  cases p with
  | periodic now period offset =>
      obtain ⟨hp, _, _, hmem, hnext, hover⟩ := hfollows
      have hlater := hnone e hmem
      rw [hnext] at hlater
      exact handlings_eq hp hover hlater
  | once now delay =>
      obtain ⟨_, hcases⟩ := hfollows
      show s.handlings e = if s.clock.time < now + delay then 0 else 1
      rcases hcases with ⟨hzero, hmem, hnext⟩ | ⟨hone, _, hover⟩
      · have hlater := hnone e hmem
        rw [hnext] at hlater
        rw [hzero, if_pos hlater]
      · rw [hone, if_neg (not_lt_of_ge hover)]

theorem OnTime.advance {plan : ε → Option Plan} (h : OnTime plan s q) (span : Nat) :
    OnTime plan { s with clock := { s.clock with time := s.clock.time + span } } q := by
  have hle : s.clock.time ≤ s.clock.time + span := Nat.le_add_right _ _
  refine ⟨h.represents.advance hle, h.unscheduled, h.unplanned, fun e p hplan => ?_⟩
  exact (h.planned e p hplan).untouched ⟨rfl, Iff.rfl, rfl, rfl⟩ hle

theorem handleEvents_onTime {plan : ε → Option Plan} (h : OnTime plan s q)
    (hnow : s.clock.time < 2 ^ 63)
    (hbound : ∀ e p, plan e = some p → p.following s.clock.time < 2 ^ 63) :
    ∃ s' r, Returns (fun fuel => s.handleEvents fuel) s' ∧ OnTime plan s' r ∧
      s'.clock.time = s.clock.time ∧ Settled plan s' r := by
  have hdrain := handleEvents_drains (s := s) (q := q)
    (I := fun s' q => OnTime plan s' q ∧ s'.clock.time = s.clock.time)
    (fun s q hI => hI.1.represents) ?_ ⟨h, rfl⟩
  · obtain ⟨s', r, hret, hI, htime, hnone⟩ := hdrain
    exact ⟨s', r, hret, hI.1, htime, hI.1.settled hnone⟩
  · intro s₁ e q hI hdue clock hclock htime hact
    obtain ⟨hI, hs⟩ := hI
    have hhandles := hI.handles hdue (lt_of_eq_of_lt hs hnow) (by rw [hs]; exact hbound)
    obtain ⟨s', r, hret, hI', htime', hless⟩ := hhandles clock hclock htime hact
    exact ⟨s', r, hret, ⟨hI', htime'.trans hs⟩, htime', hless⟩

private theorem tick_returns {span : Nat} (h : OnTime m.plan m.events q)
    (hlegal : m.Legal (.tick span)) :
    ∃ s r, Returns (fun fuel => m.perform fuel (.tick span)) ⟨s, m.plan⟩ ∧ OnTime m.plan s r ∧
      s.clock.time = m.events.clock.time + span ∧ Settled m.plan s r := by
  obtain ⟨hnow, hbound⟩ := hlegal
  obtain ⟨s, r, hret, hs, htime, hsettled⟩ := handleEvents_onTime (h.advance span) hnow hbound
  exact ⟨s, r, hret.bind (returns_ok _), hs, htime, hsettled⟩

theorem configuredStart_eq {now period offset : Nat} (hp : 0 < period)
    (hlt : (Plan.periodic now period offset).start < 2 ^ 63) :
    configuredStart now period offset = (Plan.periodic now period offset).start := by
  by_cases hpast : offset < now
  · have hstart : (Plan.periodic now period offset).start = nextPeriod offset period now :=
      if_pos hpast
    rw [hstart] at hlt ⊢
    rw [configuredStart, if_pos hpast, if_pos hp, Nat.mod_eq_of_lt (by omega)]
  · have hstart : (Plan.periodic now period offset).start = offset := if_neg hpast
    rw [hstart, configuredStart, if_neg hpast]

theorem setPeriodicTiming_onTime {plan : ε → Option Plan} (period offset : Nat) (h : OnTime plan s q)
    (hnow : s.clock.time < 2 ^ 63) (hplan : plan e = none) (hp : 0 < period)
    (hlt : (Plan.periodic s.clock.time period offset).start < 2 ^ 63) :
    ∃ s' r, Returns (fun fuel => s.setPeriodicTiming fuel e period offset) s' ∧
      OnTime (Function.update plan e (some (.periodic s.clock.time period offset))) s' r ∧
      s'.clock.time = s.clock.time := by
  obtain ⟨hinit, he, hzero⟩ := h.unplanned e hplan
  have hqueued := (h.represents.outside e he).1
  let s₁ := s.configurePeriodicTiming e period offset
  let s₂ := s₁.setEvent e { s₁.event e with periodicSchedule := none }
  have hstart : s₂.clock.nextActivation_ms e = (Plan.periodic s.clock.time period offset).start := by
    rw [← configuredStart_eq hp hlt]
    exact Function.update_self e _ s.clock.nextActivation_ms
  have hrep : s₂.clock.Represents q := h.represents.setNextActivation he _
  obtain ⟨clock, wake, r, hret, hclock, hperm, htime, hact⟩ := hrep.startAt he hlt hnow
  let s₃ := { s₂ with clock := clock }.emit (.wake wake)
  have hself : s₃.event e = ⟨decide (0 < period), decide (0 < period), period, none⟩ := by
    simp [s₃, s₂, s₁, Events.emit, Events.setEvent, Events.configurePeriodicTiming]
  have hother : ∀ f, f ≠ e → s₃.event f = s.event f := by
    intro f hf
    simp [s₃, s₂, s₁, Events.emit, Events.setEvent, Events.configurePeriodicTiming, hf]
  have hhandlings : ∀ f, s₃.handlings f = s.handlings f := by
    intro f
    rw [show s₃.handlings f = s₂.handlings f from handlings_emit _]
    rfl
  refine ⟨s₃, r, ?_, ?_, htime⟩
  · simp only [Events.setPeriodicTiming, Events.dequeueQueued, hqueued, Bool.false_eq_true, if_false,
      ok_bind, Events.startAt]
    rw [← hstart] at hret
    exact hret.bind (returns_ok _)
  · have hle : s.clock.time ≤ s₃.clock.time := htime.ge
    apply h.update hclock hle
    · intro f hf
      refine ⟨hother f hf, ?_, ?_, hhandlings f⟩
      · simp [hperm.mem_iff, hf]
      · show clock.nextActivation_ms f = s.clock.nextActivation_ms f
        rw [hact, Function.update_of_ne hf]
        exact Function.update_of_ne hf _ _
    · rw [hself]
    · refine ⟨hp, ?_, ?_, hperm.mem_iff.mpr List.mem_cons_self, ?_, ?_⟩
      · rw [hself]
        exact decide_eq_true hp
      · rw [hself]
      · show clock.nextActivation_ms e = _
        rw [hact, Function.update_self, hhandlings, hzero, Nat.zero_mul, Nat.add_zero]
      · rw [hhandlings, hzero]
        exact fun k hk => absurd hk (Nat.not_lt_zero k)

private theorem trigger_onTime {plan : ε → Option Plan} (delay : Nat) (h : OnTime plan s q)
    (hplan : plan e = none) (hdelay : 0 < delay) (hlt : s.clock.time + delay < 2 ^ 63) :
    ∃ s' r, Returns (fun fuel => s.trigger fuel e delay) s' ∧
      OnTime (Function.update plan e (some (.once s.clock.time delay))) s' r ∧
      s'.clock.time = s.clock.time := by
  obtain ⟨hinit, he, hzero⟩ := h.unplanned e hplan
  have hconfigured : (s.event e).configured = false := by
    rw [hinit]
    rfl
  have hperiodical : (s.event e).periodical = false := by
    rw [hinit]
    rfl
  obtain ⟨s', r, hret, hevent, hrep, hperm, htime, hact, hhandlings⟩ :=
    trigger_delayed delay h.represents he hconfigured hdelay hlt
  refine ⟨s', r, hret, ?_, htime⟩
  apply h.update hrep htime.ge
  · intro f hf
    refine ⟨congrFun hevent f, ?_, ?_, hhandlings f⟩
    · simp [hperm.mem_iff, hf]
    · rw [hact, Function.update_of_ne hf]
  · rw [hevent]
    exact h.unscheduled e
  · refine ⟨by rw [hevent]; exact hperiodical, Or.inl ⟨?_, hperm.mem_iff.mpr List.mem_cons_self, ?_⟩⟩
    · rw [hhandlings, hzero]
    · rw [hact, Function.update_self]

theorem onTime_init (time : Nat) (offsetTime : θ → Nat) :
    OnTime (fun _ => none) (Events.init time offsetTime : Events ε π θ) [] :=
  ⟨represents_empty time, fun _ => rfl, fun _ _ => ⟨rfl, List.not_mem_nil, rfl⟩,
    fun _ _ h => by cases h⟩

private theorem perform_onTime {c : PlannedCall ε} (h : OnTime m.plan m.events q)
    (hnow : m.events.clock.time < 2 ^ 63) (hlegal : m.Legal c) :
    ∃ m' r, Step m c m' ∧ OnTime m'.plan m'.events r ∧ m'.events.clock.time < 2 ^ 63 := by
  cases c with
  | setPeriodicTiming e period offset =>
      obtain ⟨hplan, hp, hlt⟩ := hlegal
      obtain ⟨s, r, hret, hs, htime⟩ := setPeriodicTiming_onTime period offset h hnow hplan hp hlt
      exact ⟨_, r, ⟨⟨hplan, hp, hlt⟩, hret.bind (returns_ok _)⟩, hs, lt_of_eq_of_lt htime hnow⟩
  | trigger e delay =>
      obtain ⟨hplan, hdelay, hlt⟩ := hlegal
      obtain ⟨s, r, hret, hs, htime⟩ := trigger_onTime delay h hplan hdelay hlt
      exact ⟨_, r, ⟨⟨hplan, hdelay, hlt⟩, hret.bind (returns_ok _)⟩, hs, lt_of_eq_of_lt htime hnow⟩
  | tick span =>
      obtain ⟨s, r, hret, hs, htime, _⟩ := tick_returns h hlegal
      exact ⟨_, r, ⟨hlegal, hret⟩, hs, lt_of_eq_of_lt htime hlegal.1⟩

private theorem run_onTime {t₀ : Nat} {offsetTime : θ → Nat} (ht : t₀ < 2 ^ 63)
    {l : List (PlannedCall ε)} (h : Run Step (init t₀ offsetTime) l m) :
    (∃ q, OnTime m.plan m.events q) ∧ m.events.clock.time < 2 ^ 63 := by
  apply h.invariant (I := fun m : Planned ε π θ =>
    (∃ q, OnTime m.plan m.events q) ∧ m.events.clock.time < 2 ^ 63)
  · exact ⟨⟨[], onTime_init t₀ offsetTime⟩, ht⟩
  · intro a c b ha hstep
    obtain ⟨⟨q, hq⟩, hnow⟩ := ha
    obtain ⟨b', r, hstep', hr, hnow'⟩ := perform_onTime hq hnow hstep.1
    rw [hstep.2.unique hstep'.2]
    exact ⟨⟨r, hr⟩, hnow'⟩

/-- Behind every run a tick returns and leaves no due event in the queue. Up to this time every periodic
event was handled at its first start and at each period behind it, and every triggered event once. -/
theorem run_keepsTime {t₀ : Nat} {offsetTime : θ → Nat} (ht : t₀ < 2 ^ 63) {l : List (PlannedCall ε)}
    (h : Run Step (init t₀ offsetTime) l m) {span : Nat} (hlegal : m.Legal (.tick span)) :
    ∃ m' q, Step m (.tick span) m' ∧ m'.plan = m.plan ∧
      m'.events.clock.time = m.events.clock.time + span ∧
      Chain m'.events.clock.next m'.events.clock.queueHead q ∧
      (∀ e ∈ q, m'.events.clock.time < m'.events.clock.nextActivation_ms e) ∧
      (∀ e now period offset, m.plan e = some (.periodic now period offset) →
        ∃ start, FirstStart now period offset start ∧ m'.events.handlings e =
          if m'.events.clock.time < start then 0
          else (m'.events.clock.time - start) / period + 1) ∧
      ∀ e now delay, m.plan e = some (.once now delay) →
        m'.events.handlings e = if m'.events.clock.time < now + delay then 0 else 1 := by
  obtain ⟨⟨q, hq⟩, hnow⟩ := run_onTime ht h
  obtain ⟨s, r, hret, hs, htime, hsettled⟩ := tick_returns hq hlegal
  refine ⟨⟨s, m.plan⟩, r, ⟨hlegal, hret⟩, rfl, htime, hs.represents.chain, hsettled.notDue, ?_, ?_⟩
  · intro e now period offset hplan
    have hp : 0 < period := (hs.planned e _ hplan).1
    exact ⟨_, firstStart_start hp, hsettled.handlings e _ hplan⟩
  · intro e now delay hplan
    exact hsettled.handlings e _ hplan

/-- The tick jumps over the starts at 5, 15 and 25. -/
theorem run_keepsTime_twoEvents : ∃ m m' : Planned Nat Unit Unit,
    Run Step (init 0 fun _ => 0) [.setPeriodicTiming 0 10 5, .trigger 1 3] m ∧
    Step m (.tick 25) m' ∧ m'.events.handlings 0 = 3 ∧ m'.events.handlings 1 = 1 := by
  let m₀ : Planned Nat Unit Unit := init 0 fun _ => 0
  let plan₁ : Nat → Option Plan := Function.update (fun _ => none) 0 (some (.periodic 0 10 5))
  let plan₂ : Nat → Option Plan := Function.update plan₁ 1 (some (.once 0 3))
  obtain ⟨s₁, q₁, hret₁, hs₁, htime₁⟩ := setPeriodicTiming_onTime (e := 0) 10 5
    (onTime_init 0 fun _ => 0 : OnTime _ m₀.events []) (by decide) rfl (by decide)
    (by decide)
  have hzero₁ : s₁.clock.time = 0 := htime₁
  obtain ⟨s₂, q₂, hret₂, hs₂, htime₂⟩ :=
    trigger_onTime (e := 1) 3 hs₁ rfl (by decide) (by rw [hzero₁]; decide)
  have hzero₂ : s₂.clock.time = 0 := htime₂.trans hzero₁
  have h₁ : Step m₀ (.setPeriodicTiming 0 10 5) ⟨s₁, plan₁⟩ :=
    ⟨⟨rfl, by decide, by decide⟩, hret₁.bind (returns_ok _)⟩
  have h₂ : Step ⟨s₁, plan₁⟩ (.trigger 1 3) ⟨s₂, plan₂⟩ := by
    refine ⟨⟨rfl, by decide, ?_⟩, ?_⟩
    · show s₁.clock.time + 3 < 2 ^ 63
      rw [hzero₁]
      decide
    · have hplan : plan₂ = Function.update plan₁ 1 (some (.once s₁.clock.time 3)) := by
        rw [hzero₁]
      rw [hplan]
      exact hret₂.bind (returns_ok _)
  have hlegal : Legal (⟨s₂, plan₂⟩ : Planned Nat Unit Unit) (.tick 25) := by
    show s₂.clock.time + 25 < 2 ^ 63 ∧
      ∀ e p, plan₂ e = some p → p.following (s₂.clock.time + 25) < 2 ^ 63
    rw [hzero₂]
    refine ⟨by decide, fun e p hp => ?_⟩
    match e with
    | 0 =>
        obtain rfl : Plan.periodic 0 10 5 = p := Option.some.inj hp
        decide
    | 1 =>
        obtain rfl : Plan.once 0 3 = p := Option.some.inj hp
        decide
    | e + 2 => cases hp
  obtain ⟨m', q, hstep, _, htime, _, _, hperiodic, honce⟩ :=
    run_keepsTime (by decide) ((Run.start.next h₁).next h₂) hlegal
  have hnow : m'.events.clock.time = 25 := by
    rw [htime]
    show s₂.clock.time + 25 = 25
    rw [hzero₂]
  refine ⟨_, m', (Run.start.next h₁).next h₂, hstep, ?_, ?_⟩
  · obtain ⟨start, hstart, hcount⟩ := hperiodic 0 0 10 5 rfl
    rw [hcount, hnow, hstart.1 (by decide)]
    rfl
  · rw [honce 1 0 3 rfl, hnow]
    rfl

end Planned

end TaskingFramework
