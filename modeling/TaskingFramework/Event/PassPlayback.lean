import TaskingFramework.Event.PlaybackRuns
import TaskingFramework.Foundation.TimedPass

/-!
# Passes of a playback

The event plays its schedule pass by pass, whatever the offsets of the triggers are. A tick plays all
triggers whose time is over.
-/

set_option linter.unusedSectionVars false

namespace TaskingFramework

open Foundation

namespace Schedules

variable {π θ : Type} [DecidableEq π] [DecidableEq θ] {s fresh : Schedules π θ} {p : π}
  {offsetTime : θ → Nat} {period : Nat} {x : TimedPass θ}

/-- The place of the schedule `p`, the begin of the pass modulo the word size. The schedule was
`fresh`. -/
structure InPass (offsetTime : θ → Nat) (period : Nat) (s fresh : Schedules π θ) (p : π)
    (x : TimedPass θ) : Prop where
  lists : Lists offsetTime s p x.entries
  active : (s.schedule p).activeTrigger = some x.active
  period : (s.schedule p).period_ms = period
  start : ((s.schedule p).startTimeOffPeriod_ms : Int) = x.base % 2 ^ 64
  triggers : (s.schedule p).triggers = (fresh.schedule p).triggers
  frame : ∀ schedule, s.setSchedule p schedule = fresh.setSchedule p schedule

theorem InPass.bind_next (h : InPass offsetTime period s fresh p x) :
    (s.schedule p).activeTrigger.bind s.next = x.behind.head? := by
  rw [h.active]
  exact h.lists.chain.next_eq

theorem InPass.fresh_lists (h : InPass offsetTime period s fresh p x) :
    Lists offsetTime fresh p x.entries := by
  have hfresh : fresh = s.setSchedule p (fresh.schedule p) := by
    rw [h.frame]
    simp only [setSchedule, Function.update_eq_self]
  rw [hfresh]
  exact h.lists.setSchedule h.triggers.symm

private theorem InPass.play (h : InPass offsetTime period s fresh p x) :
    ∃ s₁ s₂ l y time, Returns (fun fuel => s.pushTriggers fuel p) (s₁, l) ∧
      s₁.stepToNextTriggerOffset p = .ok (s₂, time) ∧ InPass offsetTime period s₂ fresh p y ∧
      TimedPass.Moves offsetTime period x l y ∧ (time : Int) = y.due offsetTime % 2 ^ 64 := by
  obtain ⟨s₁, s₂, g, m, b, start, hbehind, hpush, hstep, hs₂, hg, hnext⟩ := h.lists.play h.active
  have hbase := h.start
  have hperiod := h.period
  -- what is said of a place with the new active trigger
  have hall : ∀ y : TimedPass θ, y.entries = x.entries → y.active = b →
      (start : Int) = y.base % 2 ^ 64 → InPass offsetTime period s₂ fresh p y := by
    intro y hentries hactive hstart
    subst hs₂
    refine ⟨?_, ?_, ?_, ?_, ?_, fun schedule => ?_⟩
    · rw [hentries]
      exact h.lists.setSchedule rfl
    · rw [setSchedule_schedule, hactive]
    · rw [setSchedule_schedule]
      exact hperiod
    · rw [setSchedule_schedule]
      exact hstart
    · rw [setSchedule_schedule]
      exact h.triggers
    · rw [setSchedule_setSchedule]
      exact h.frame schedule
  rcases hnext with ⟨hb, hlater, hsame⟩ | ⟨hend, hb, hwrap⟩
  · obtain ⟨k, rfl⟩ := List.head?_eq_some_iff.mp hb
    have hmoves : TimedPass.Moves offsetTime period x _ _ := .within hbehind hg hlater
    refine ⟨s₁, s₂, _, _, _, hpush, hstep, hall _ hmoves.entries_eq rfl ?_, hmoves, ?_⟩
    · rw [hsame]
      exact hbase
    · rw [hsame, TimedPass.due]
      push_cast
      omega
  · rw [hend, List.append_nil] at hbehind
    subst hbehind
    obtain ⟨k, hfirst⟩ := List.head?_eq_some_iff.mp hb
    have hmoves : TimedPass.Moves offsetTime period x _ _ := .wrap hg hfirst
    rw [hperiod] at hwrap
    refine ⟨s₁, s₂, _, _, _, hpush, hstep, hall _ hmoves.entries_eq rfl ?_, hmoves, ?_⟩
    · rw [hwrap]
      push_cast
      omega
    · rw [hwrap, TimedPass.due]
      push_cast
      omega

variable {l : List θ}

/-- The place of the first step: behind the active trigger, or at the begin of the list. -/
structure StartsAt (s : Schedules π θ) (p : π) (start period : Nat) (l : List θ) (x : TimedPass θ) :
    Prop where
  entries : x.entries = l
  place : (s.schedule p).activeTrigger.bind s.next = some x.active ∧ x.base = start - period ∨
    (s.schedule p).activeTrigger.bind s.next = none ∧ x.before = [] ∧ x.base = start

private theorem Lists.startsAt (h : Lists offsetTime s p l) (hl : l ≠ [])
    (hmem : ∀ b ∈ (s.schedule p).activeTrigger.bind s.next, b ∈ l) {start period : Nat}
    (hstart : start < 2 ^ 64) (hperiod : period < 2 ^ 64) :
    ∃ s' x time, (s.configured p start period).stepToNextTriggerOffset p = .ok (s', time) ∧
      InPass offsetTime period s' s p x ∧ (time : Int) = x.due offsetTime % 2 ^ 64 ∧
      StartsAt s p start period l x := by
  cases hnext : (s.schedule p).activeTrigger.bind s.next with
  | some b =>
      obtain ⟨k, m, rfl⟩ := List.append_of_mem (hmem b hnext)
      refine ⟨_, ⟨(start : Int) - period, k, b, m⟩, _, configured_step_within hnext,
        ⟨h.setSchedule rfl, ?_, ?_, ?_, ?_, ?_⟩, ?_, rfl, Or.inl ⟨hnext, rfl⟩⟩
      · rw [setSchedule_schedule]
      · rw [setSchedule_schedule]
      · rw [setSchedule_schedule]
        show (((2 ^ 64 + start - period) % 2 ^ 64 : Nat) : Int) = (start - period) % 2 ^ 64
        omega
      · rw [setSchedule_schedule]
      · exact setSchedule_setSchedule _
      · rw [h.offset]
        show _ = ((start : Int) - period + offsetTime b) % 2 ^ 64
        omega
  | none =>
      obtain ⟨b, m, rfl⟩ := List.exists_cons_of_ne_nil hl
      refine ⟨_, ⟨start, [], b, m⟩, _, configured_step hnext h.chain.1 hstart hperiod,
        ⟨h.setSchedule rfl, ?_, ?_, ?_, ?_, ?_⟩, ?_, rfl, Or.inr ⟨hnext, rfl, rfl⟩⟩
      · rw [setSchedule_schedule]
      · rw [setSchedule_schedule]
      · rw [setSchedule_schedule]
        show (start : Int) = start % 2 ^ 64
        omega
      · rw [setSchedule_schedule]
      · exact setSchedule_setSchedule _
      · rw [h.offset]
        show _ = ((start : Int) + offsetTime b) % 2 ^ 64
        omega

end Schedules

namespace Events

open Clock

variable {ε π θ : Type} [DecidableEq ε] [DecidableEq π] [DecidableEq θ] {s : Events ε π θ} {e : ε}
  {p : π} {fresh : Schedules π θ} {offsetTime : θ → Nat} {period : Nat} {x y : TimedPass θ} {l : List θ}

/-- The event is queued for the next trigger of its place. -/
structure Playing (offsetTime : θ → Nat) (period : Nat) (fresh : Schedules π θ) (e : ε) (p : π)
    (s : Events ε π θ) (x : TimedPass θ) : Prop where
  schedule : s.schedules.InPass offsetTime period fresh p x
  event : s.event e = ⟨true, true, period, some p⟩
  activation : (s.clock.nextActivation_ms e : Int) = x.due offsetTime
  represents : s.clock.Represents [e]

/-- The times of the pass are below the sign bit. -/
structure Representable (offsetTime : θ → Nat) (period : Nat) (x : TimedPass θ) : Prop where
  low : -(period : Int) ≤ x.base
  high : ∀ t ∈ x.entries, x.base + offsetTime t < 2 ^ 63

private theorem Representable.moves {now : Nat} (h : Representable offsetTime period x)
    (hmoves : TimedPass.Moves offsetTime period x l y)
    (hsorted : x.entries.Pairwise fun a b => offsetTime a ≤ offsetTime b)
    (hdue : x.due offsetTime ≤ now) (hnow : now + period < 2 ^ 63) :
    Representable offsetTime period y := by
  refine ⟨h.low.trans hmoves.base_le, ?_⟩
  rw [hmoves.entries_eq]
  intro t ht
  rcases hmoves.base_add_le hsorted hdue with hsame | hnext
  · rw [hsame]
    exact h.high t ht
  · have hle := hnext t ht
    omega

private theorem Playing.handle {clock : Clock ε} (h : Playing offsetTime period fresh e p s x)
    (hx : Representable offsetTime period x) (hnow : s.clock.time + period < 2 ^ 63)
    (hdue : x.due offsetTime ≤ s.clock.time) (hrep : clock.Represents [])
    (htime : clock.time = s.clock.time) :
    ∃ s' l y, Returns (fun fuel => ({ s with clock := clock } : Events ε π θ).handle fuel e) s' ∧
      TimedPass.Moves offsetTime period x l y ∧ Playing offsetTime period fresh e p s' y ∧
      Representable offsetTime period y ∧ s'.clock.time = s.clock.time ∧
      s'.pushes = s.pushes ++ l.map fun t => (s.clock.time, t) := by
  obtain ⟨schedules₁, schedules₂, l, y, time, hpush, hstep, hat, hmoves, hmod⟩ := h.schedule.play
  have hy := hx.moves hmoves h.schedule.lists.sorted hdue hnow
  have hnonneg : 0 ≤ y.due offsetTime := by
    apply hmoves.due_nonneg hx.low
    rw [← h.activation]
    exact Int.natCast_nonneg _
  have hlt : y.due offsetTime < 2 ^ 63 := hy.high y.active (List.mem_append_right _ List.mem_cons_self)
  have hydue : (time : Int) = y.due offsetTime := by omega
  have hperiodical : (s.event e).periodical = true := by rw [h.event]
  have hplays : (s.event e).periodicSchedule = some p := by rw [h.event]
  obtain ⟨s', r, hret, hsame, hschedules, hclock, hperm, htime', hact, hpushes⟩ :=
    handle_scheduled (s := { s with clock := clock }) hperiodical hplays hrep List.not_mem_nil
      (by show clock.time < 2 ^ 63; omega) hpush hstep (by omega)
  obtain rfl : r = [e] := List.perm_singleton.mp hperm
  refine ⟨s', l, y, hret, hmoves, ⟨?_, ?_, ?_, hclock⟩, hy, htime'.trans htime, ?_⟩
  · rw [hschedules]
    exact hat
  · rw [hsame]
    exact h.event
  · rw [hact, Function.update_self]
    exact hydue
  · rw [hpushes, show ({ s with clock := clock } : Events ε π θ).clock.time = s.clock.time from htime]
    rfl

private theorem Playing.handleEvents {J : TimedPass θ → List (Nat × θ) → Prop}
    (h : Playing offsetTime period fresh e p s x) (hx : Representable offsetTime period x)
    (hp : 0 < period) (hnow : s.clock.time + period < 2 ^ 63) (hJ : J x s.pushes)
    (hkeeps : ∀ x l y pushes, TimedPass.Moves offsetTime period x l y →
      x.due offsetTime ≤ s.clock.time → J x pushes →
      J y (pushes ++ l.map fun t => (s.clock.time, t))) :
    ∃ s' y, Returns (fun fuel => s.handleEvents fuel) s' ∧ Playing offsetTime period fresh e p s' y ∧
      Representable offsetTime period y ∧ s'.clock.time = s.clock.time ∧
      s.clock.time < y.due offsetTime ∧ J y s'.pushes := by
  generalize hs : s.clock.time = now at hnow hkeeps
  let I : Nat → Events ε π θ → List ε → Prop := fun work s q => q = [e] ∧ s.clock.time = now ∧
    ∃ x : TimedPass θ, Playing offsetTime period fresh e p s x ∧ Representable offsetTime period x ∧
      x.remaining now = work ∧ J x s.pushes
  have hhandle : ∀ work s f q, I work s (f :: q) → s.clock.nextActivation_ms f ≤ s.clock.time →
      Lowers I work s f q := by
    intro work s f q hI hdue clock hrep htime hact
    obtain ⟨hq, hs, x, hplaying, hx, hwork, hJ⟩ := hI
    obtain ⟨rfl, rfl⟩ := List.cons.inj hq
    have hxdue : x.due offsetTime ≤ now := by
      rw [← hplaying.activation, ← hs]
      exact Int.ofNat_le.mpr hdue
    rw [← hs] at hxdue hnow
    obtain ⟨s', l, y, hret, hmoves, hplaying', hy, htime', hpushes⟩ :=
      hplaying.handle hx hnow hxdue hrep htime
    rw [hs] at hxdue
    refine ⟨s', [f], hret, htime', y.remaining now, ?_, rfl, htime'.trans hs, y, hplaying', hy, rfl, ?_⟩
    · rw [← hwork]
      exact hmoves.remaining_lt hp hxdue
    · rw [hpushes, hs]
      exact hkeeps x l y _ hmoves hxdue hJ
  have hrep : ∀ work s q, I work s q → s.clock.Represents q := by
    intro work s q hI
    obtain ⟨rfl, _, x, hplaying, _⟩ := hI
    exact hplaying.represents
  obtain ⟨s', q, left, hret, ⟨rfl, hs', y, hplaying, hy, _, hJ'⟩, htime, hnone⟩ :=
    handleEvents_lowers hrep hhandle ⟨rfl, hs, x, h, hx, rfl, hJ⟩
  refine ⟨s', y, hret, hplaying, hy, hs', ?_, hJ'⟩
  rw [← hplaying.activation, ← hs']
  exact Int.ofNat_lt.mpr (hnone e List.mem_cons_self)

/-- The event plays from the place of the first step if its time is below the period. Otherwise it is
stopped. -/
theorem starts_at {offset : Nat} (hrep : s.clock.Represents [])
    (hlists : s.schedules.Lists offsetTime p l) (hl : l ≠ [])
    (hmem : ∀ b ∈ (s.schedules.schedule p).activeTrigger.bind s.schedules.next, b ∈ l) (hp : 0 < period)
    (hnow : s.clock.time + period < 2 ^ 63)
    (hlt : ∀ t ∈ l, configuredStart s.clock.time period offset + offsetTime t < 2 ^ 63) :
    ∃ s' x, Step s (.setPeriodicSchedule e period offset p) s' ∧ s'.clock.time = s.clock.time ∧
      s'.pushes = s.pushes ∧ s'.schedules.InPass offsetTime period s.schedules p x ∧
      Representable offsetTime period x ∧
      s.schedules.StartsAt p (configuredStart s.clock.time period offset) period l x ∧
      if 0 ≤ x.due offsetTime ∧ x.due offsetTime < period then
        Playing offsetTime period s.schedules e p s' x
      else s'.clock.Represents [] := by
  obtain ⟨b, k, rfl⟩ := List.exists_cons_of_ne_nil hl
  have hstart := hlt b List.mem_cons_self
  obtain ⟨schedules, x, time, hstep, hat, hmod, hplace⟩ := hlists.startsAt hl hmem
    (by omega : configuredStart s.clock.time period offset < 2 ^ 64) (by omega : period < 2 ^ 64)
  have hx : Representable offsetTime period x := by
    constructor
    · rcases hplace.place with ⟨_, hbase⟩ | ⟨_, _, hbase⟩ <;> omega
    · intro t ht
      rw [hplace.entries] at ht
      have hlt' := hlt t ht
      rcases hplace.place with ⟨_, hbase⟩ | ⟨_, _, hbase⟩ <;> omega
  have htriggers : (s.schedules.schedule p).triggers ≠ none := by
    rw [hlists.chain.1]
    exact Option.some_ne_none b
  have hnone : e ∈ ([] : List ε) → s.clock.queued e = true := fun h => absurd h List.not_mem_nil
  obtain ⟨s', r, hret, hschedules, hclock, hsame, hpushes, hqueued⟩ :=
    setPeriodicSchedule_returns hrep hnone htriggers hp (fun hin => by omega) (by omega) hstep
  rw [← hschedules] at hat
  refine ⟨s', x, hret, hsame, hpushes, hat, hx, hplace, ?_⟩
  have hlow := hx.low
  have hhigh := hx.high x.active (List.mem_append_right _ List.mem_cons_self)
  have hdue : x.due offsetTime = x.base + offsetTime x.active := rfl
  by_cases hin : time < period
  · rw [if_pos hin] at hqueued
    obtain ⟨hperm, hevent, hact, _⟩ := hqueued
    obtain rfl : r = [e] := List.perm_singleton.mp hperm
    rw [if_pos (by omega)]
    refine ⟨hat, hevent, ?_, hclock⟩
    rw [hact]
    omega
  · rw [if_neg hin] at hqueued
    rw [if_neg (by omega)]
    rw [hqueued.1] at hclock
    exact hclock

theorem start_empty (hrep : s.clock.Represents []) (hnone : (s.schedules.schedule p).triggers = none)
    (e : ε) (period offset : Nat) :
    ∃ s', Step s (.setPeriodicSchedule e period offset p) s' ∧ s'.clock = s.clock ∧
      s'.schedules = s.schedules ∧ s'.pushes = s.pushes := by
  let s₁ := s.setEvent e { s.event e with periodicSchedule := some p }
  have hempty : ¬ (s₁.schedules.schedule p).triggers ≠ none := not_not_intro hnone
  refine ⟨s₁.setEvent e { s₁.event e with periodicSchedule := none }, ?_, rfl, rfl, rfl⟩
  apply returns_of_add 0
  intro fuel
  rw [Events.perform, Events.setPeriodicSchedule, dequeueQueued_outside hrep List.not_mem_nil, ok_bind,
    if_neg hempty]
  rfl

end Events

namespace Playback

open Clock Events

variable {ε π θ : Type} [DecidableEq ε] [DecidableEq π] [DecidableEq θ] {m : Playback ε π θ} {e : ε}
  {p : π} {fresh : Schedules π θ} {offsetTime : θ → Nat} {period span : Nat} {x : TimedPass θ}

/-- A tick, without a bound on its time. -/
def Ticks (m : Playback ε π θ) (span : Nat) (m' : Playback ε π θ) : Prop :=
  Returns (fun fuel => m.tick fuel span) m'

theorem tick_playing {J : TimedPass θ → List (Nat × θ) → Prop}
    (h : Playing offsetTime period fresh e p m.events x) (hx : Representable offsetTime period x)
    (hp : 0 < period) (hnow : m.events.clock.time + span + period < 2 ^ 63) (hJ : J x m.events.pushes)
    (hkeeps : ∀ x l y pushes, TimedPass.Moves offsetTime period x l y →
      x.due offsetTime ≤ (m.events.clock.time + span : Nat) → J x pushes →
      J y (pushes ++ l.map fun t => (m.events.clock.time + span, t))) :
    ∃ m' y, Ticks m span m' ∧ Playing offsetTime period fresh e p m'.events y ∧
      Representable offsetTime period y ∧ m'.events.clock.time = m.events.clock.time + span ∧
      (m.events.clock.time + span : Nat) < y.due offsetTime ∧ J y m'.events.pushes := by
  let s : Events ε π θ :=
    { m.events with clock := { m.events.clock with time := m.events.clock.time + span } }
  have hplaying : Playing offsetTime period fresh e p s x :=
    ⟨h.schedule, h.event, h.activation, h.represents.advance (Nat.le_add_right _ _)⟩
  obtain ⟨s', y, hret, hplaying', hy, htime, hlater, hJ'⟩ :=
    hplaying.handleEvents hx hp hnow hJ hkeeps
  exact ⟨_, y, hret.bind (returns_ok _), hplaying', hy, htime, hlater, hJ'⟩

theorem run_playing {J : Nat → TimedPass θ → List (Nat × θ) → Prop}
    (hmono : ∀ now now₂ x pushes, now ≤ now₂ → J now x pushes → J now₂ x pushes)
    (hkeeps : ∀ now x l y pushes, TimedPass.Moves offsetTime period x l y →
      x.due offsetTime ≤ (now : Nat) → J now x pushes → J now y (pushes ++ l.map fun t => (now, t)))
    (h : Playing offsetTime period fresh e p m.events x) (hx : Representable offsetTime period x)
    (hp : 0 < period) (spans : List Nat) (hlast : m.events.clock.time + spans.sum + period < 2 ^ 63)
    (hJ : J m.events.clock.time x m.events.pushes) :
    ∃ m' y, Run Ticks m spans m' ∧ Playing offsetTime period fresh e p m'.events y ∧
      Representable offsetTime period y ∧
      m'.events.clock.time = m.events.clock.time + spans.sum ∧
      J m'.events.clock.time y m'.events.pushes ∧
      (m' = m ∧ y = x ∨ (m'.events.clock.time : Int) < y.due offsetTime) := by
  induction spans using List.reverseRecOn with
  | nil => exact ⟨m, x, .start, h, hx, rfl, hJ, Or.inl ⟨rfl, rfl⟩⟩
  | append_singleton spans span ih =>
      rw [List.sum_append, List.sum_singleton, ← Nat.add_assoc] at hlast ⊢
      obtain ⟨m₁, z, hrun, h₁, hz, htime, hJ₁, _⟩ := ih (by omega)
      rw [← htime] at hlast ⊢
      have hJz := hmono _ (m₁.events.clock.time + span) z _ (Nat.le_add_right _ _) hJ₁
      obtain ⟨m', y, htick, h', hy, htime', hlater, hJ'⟩ :=
        tick_playing h₁ hz hp hlast hJz fun x l y pushes => hkeeps _ x l y pushes
      rw [← htime'] at hlater hJ'
      exact ⟨m', y, hrun.next htick, h', hy, htime', hJ', Or.inr hlater⟩

theorem tick_idle (h : m.events.clock.Represents []) (span : Nat) :
    ∃ m', Ticks m span m' ∧ m'.events.clock.Represents [] ∧ m'.events.pushes = m.events.pushes ∧
      m'.events.schedules = m.events.schedules ∧
      m'.events.clock.time = m.events.clock.time + span := by
  let s : Events ε π θ :=
    { m.events with clock := { m.events.clock with time := m.events.clock.time + span } }
  have hrep : s.clock.Represents [] := h.advance (Nat.le_add_right _ _)
  have hread := readFirstPending_none hrep (by simp)
  have hret : Returns (fun fuel => s.handleEvents fuel) s :=
    (hread.bind (returns_ok s)).step fun fuel => rfl
  exact ⟨_, hret.bind (returns_ok _), hrep, rfl, rfl, rfl⟩

theorem run_idle (h : m.events.clock.Represents []) (spans : List Nat) :
    ∃ m', Run Ticks m spans m' ∧ m'.events.clock.Represents [] ∧
      m'.events.pushes = m.events.pushes ∧ m'.events.schedules = m.events.schedules ∧
      m'.events.clock.time = m.events.clock.time + spans.sum := by
  induction spans using List.reverseRecOn with
  | nil => exact ⟨m, .start, h, rfl, rfl, rfl⟩
  | append_singleton spans span ih =>
      obtain ⟨m₁, hrun, h₁, hpushes, hschedules, htime⟩ := ih
      obtain ⟨m', htick, h', hpushes', hschedules', htime'⟩ := tick_idle h₁ span
      refine ⟨m', hrun.next htick, h', hpushes'.trans hpushes, hschedules'.trans hschedules, ?_⟩
      rw [htime', htime, List.sum_append, List.sum_singleton, Nat.add_assoc]

variable {t₀ offset : Nat} {ts : List θ} {s : Events ε π θ}

theorem Loaded.represents (h : Loaded t₀ offsetTime p ts s) : s.clock.Represents [] := by
  rw [h.clock]
  exact represents_empty t₀

theorem Loaded.pushes_eq (h : Loaded t₀ offsetTime p ts s) : s.pushes = [] := by
  rw [Events.pushes, h.trace]
  rfl

theorem Loaded.triggers_nil (h : Loaded t₀ offsetTime p [] s) :
    (s.schedules.schedule p).triggers = none := by
  obtain ⟨k, hlists, hperm⟩ := h.triggers
  obtain rfl : k = [] := hperm.eq_nil
  exact hlists.chain

/-- The first call of `setPeriodicSchedule` for a schedule. -/
theorem Loaded.startsAt (h : Loaded t₀ offsetTime p ts s) (hts : ts ≠ []) (hp : 0 < period)
    (hnow : t₀ + period < 2 ^ 63)
    (hlt : ∀ t ∈ ts, configuredStart t₀ period offset + offsetTime t < 2 ^ 63) :
    ∃ (s' : Events ε π θ) (x : TimedPass θ),
      Events.Step s (.setPeriodicSchedule e period offset p) s' ∧ s'.clock.time = t₀ ∧
      s'.pushes = [] ∧ x.entries.Perm ts ∧ x.before = [] ∧
      x.base = configuredStart t₀ period offset ∧
        s'.schedules.InPass offsetTime period s.schedules p x ∧
      Representable offsetTime period x ∧
      if x.due offsetTime < period then Playing offsetTime period s.schedules e p s' x
      else s'.clock.Represents [] := by
  obtain ⟨k, hlists, hperm⟩ := h.triggers
  have htime : s.clock.time = t₀ := by rw [h.clock]; rfl
  have hend : (s.schedules.schedule p).activeTrigger.bind s.schedules.next = none := by
    rw [h.idle]
    rfl
  have hnone : ∀ b ∈ (s.schedules.schedule p).activeTrigger.bind s.schedules.next, b ∈ k := by
    rw [hend]
    simp
  have hk : k ≠ [] := fun hnil => hts (List.nil_perm.mp (hnil ▸ hperm))
  rw [← htime] at hnow hlt ⊢
  obtain ⟨s', x, hset, hsame, hpushes, hat, hx, hplace, hqueued⟩ :=
    starts_at (e := e) h.represents hlists
    hk hnone hp hnow fun t ht => hlt t (hperm.subset ht)
  rcases hplace.place with ⟨hnext, _⟩ | ⟨_, hbefore, hbase⟩
  · rw [hend] at hnext
    exact absurd hnext.symm (Option.some_ne_none _)
  refine ⟨s', x, hset, hsame, hpushes.trans h.pushes_eq, ?_, hbefore, hbase, hat, hx, ?_⟩
  · rw [hplace.entries]
    exact hperm
  · have hnonneg : 0 ≤ x.due offsetTime := by
      rw [TimedPass.due]
      omega
    by_cases hin : x.due offsetTime < period
    · rw [if_pos ⟨hnonneg, hin⟩] at hqueued
      rw [if_pos hin]
      exact hqueued
    · rw [if_neg (fun hboth => hin hboth.2)] at hqueued
      rw [if_neg hin]
      exact hqueued

end Playback

end TaskingFramework
