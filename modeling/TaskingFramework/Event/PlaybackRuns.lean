import TaskingFramework.Event.ScheduleStart

/-!
# Runs of a playback

The triggers are added to a new schedule, an event is set to play it, and time goes forward by ticks
with one run of `handleEvents` each. The times of these runs are kept beside the events.
-/

set_option linter.unusedSectionVars false

namespace TaskingFramework

open Foundation

/-- A push of a trigger: the run of `handleEvents`, the pass it belongs to, and the trigger. -/
structure Push (θ : Type) where
  run : Nat
  pass : Nat
  trigger : θ
  deriving DecidableEq, Repr

structure Playback (ε π θ : Type) where
  events : Events ε π θ
  runs : List Nat

/-- The time of a trigger in the pass `i`. -/
def dueTime {θ : Type} (start period : Nat) (offsetTime : θ → Nat) (i : Nat) (t : θ) : Nat :=
  start + i * period + offsetTime t

namespace Playback

open Clock Events

variable {ε π θ : Type} [DecidableEq ε] [DecidableEq π] [DecidableEq θ] {m m' : Playback ε π θ}
  {s s' : Events ε π θ} {e : ε} {p : π} {c : TimedCycle θ} {x y : c.Position} {runs : List Nat}
  {l : List θ} {time span : Nat}

def tick (fuel : Nat) (m : Playback ε π θ) (span : Nat) : Outcome (Playback ε π θ) := do
  let s ← m.events.perform fuel (.advance span)
  let s ← s.perform fuel .handleEvents
  return ⟨s, m.runs ++ [s.clock.time]⟩

/-- The time and the next start behind it are below the sign bit. -/
def Legal (due : Nat → θ → Nat) (triggers : List θ) (m : Playback ε π θ) (span : Nat) : Prop :=
  m.events.clock.time + span < 2 ^ 63 ∧
    ∃ i, ∃ t ∈ triggers, m.events.clock.time + span < due i t ∧ due i t < 2 ^ 63

def Tick (due : Nat → θ → Nat) (triggers : List θ) (m : Playback ε π θ) (span : Nat)
    (m' : Playback ε π θ) : Prop :=
  Legal due triggers m span ∧ Returns (fun fuel => m.tick fuel span) m'

private theorem legal_congr {due : Nat → θ → Nat} {k l : List θ} (h : ∀ t, t ∈ k ↔ t ∈ l) :
    Legal due k m span ↔ Legal due l m span := by
  simp only [Legal, h]

/-- The push was due in its run, and in no earlier one. -/
structure InTime (due : Nat → θ → Nat) (runs : List Nat) (push : Push θ) : Prop where
  run : push.run ∈ runs
  reached : due push.pass push.trigger ≤ push.run
  first : ∀ time ∈ runs, due push.pass push.trigger ≤ time → push.run ≤ time

/-- The pushes up to a position. -/
structure Recorded (c : TimedCycle θ) (s : Events ε π θ) (runs : List Nat) (x : c.Position)
    (log : List (Push θ)) : Prop where
  pushes : s.pushes = log.map fun push => (push.run, push.trigger)
  played : (log.map fun push => (push.pass, push.trigger)) = x.played
  inTime : ∀ push ∈ log, InTime c.due runs push

private theorem Recorded.run {log : List (Push θ)} (h : Recorded c s runs x log)
    (htime : ∀ t ∈ runs, t ≤ time) (hpushes : s'.pushes = s.pushes) :
    Recorded c s' (runs ++ [time]) x log := by
  refine ⟨hpushes.trans h.pushes, h.played, fun push hpush => ?_⟩
  obtain ⟨hrun, hdue, hfirst⟩ := h.inTime push hpush
  refine ⟨List.mem_append_left _ hrun, hdue, ?_⟩
  intro t ht hle
  rcases List.mem_append.mp ht with ht | ht
  · exact hfirst t ht hle
  · rw [List.mem_singleton.mp ht]
    exact htime _ hrun

private theorem Recorded.step {log : List (Push θ)} (h : Recorded c s (runs ++ [time]) x log)
    (hsteps : x.Steps l y) (hdue : x.due ≤ time) (hbefore : ∀ t ∈ runs, t < x.due)
    (hpushes : s'.pushes = s.pushes ++ l.map fun t => (time, t)) :
    Recorded c s' (runs ++ [time]) y (log ++ l.map fun t => ⟨time, x.pass, t⟩) := by
  refine ⟨?_, ?_, ?_⟩
  · rw [hpushes, h.pushes, List.map_append, List.map_map]
    rfl
  · rw [List.map_append, h.played, hsteps.played, List.map_map]
    rfl
  · intro push hpush
    rcases List.mem_append.mp hpush with hpush | hpush
    · exact h.inTime push hpush
    · obtain ⟨t, ht, rfl⟩ := List.mem_map.mp hpush
      have hxt : c.due x.pass t = x.due := hsteps.due t ht
      refine ⟨by simp, ?_, ?_⟩
      · show c.due x.pass t ≤ time
        rw [hxt]
        exact hdue
      · intro u hu hle
        rw [show c.due x.pass t = x.due from hxt] at hle
        rcases List.mem_append.mp hu with hu | hu
        · exact absurd (hbefore u hu) (not_lt_of_ge hle)
        · exact (List.mem_singleton.mp hu).ge

/-- Behind a run of `handleEvents` the next trigger is not due. -/
structure UpToDate (c : TimedCycle θ) (e : ε) (p : π) (m : Playback ε π θ) (x : c.Position) : Prop where
  plays : Plays c e p m.events x
  before : ∀ t ∈ m.runs, t < x.due
  past : ∀ t ∈ m.runs, t ≤ m.events.clock.time
  recorded : ∃ log, Recorded c m.events m.runs x log

private theorem UpToDate.tick (h : UpToDate c e p m x) (hlegal : m.Legal c.due c.entries span) :
    ∃ m' y, Tick c.due c.entries m span m' ∧ UpToDate c e p m' y ∧
      m'.runs = m.runs ++ [m.events.clock.time + span] := by
  obtain ⟨hnow, i, a, ha, hlater, hlt⟩ := hlegal
  obtain ⟨log, hrecorded⟩ := h.recorded
  generalize htime : m.events.clock.time + span = time at hnow hlater
  let s₁ : Events ε π θ :=
    { m.events with clock := { m.events.clock with time := m.events.clock.time + span } }
  have hle : m.events.clock.time ≤ time := by omega
  have hpast : ∀ t ∈ m.runs, t ≤ time := fun t ht => (h.past t ht).trans hle
  let I : Events ε π θ → List ε → Prop := fun s q => q = [e] ∧ s.clock.time = time ∧
    ∃ x : c.Position, Plays c e p s x ∧ (∀ t ∈ m.runs, t < x.due) ∧
      ∃ log, Recorded c s (m.runs ++ [time]) x log
  have hstart : I s₁ [e] := by
    refine ⟨rfl, htime, x, ?_, h.before, log, hrecorded.run hpast rfl⟩
    exact ⟨h.plays.schedule, h.plays.event, h.plays.activation,
      h.plays.represents.advance (Nat.le_add_right _ _)⟩
  have hhandle : ∀ s f q, I s (f :: q) → s.clock.nextActivation_ms f ≤ s.clock.time →
      Handles I s f q := by
    intro s f q hI hdue clock hclock hnow' hact
    obtain ⟨hq, hs, x, hplays, hbefore, log, hlog⟩ := hI
    obtain ⟨rfl, rfl⟩ := List.cons.inj hq
    have hclocktime : clock.time = time := hnow'.trans hs
    rw [hplays.activation, hs] at hdue
    obtain ⟨s', l, y, hret, hplays', hsteps, htime', hact', hpushes⟩ :=
      handle_plays (s := { s with clock := clock }) hplays.schedule hplays.event hclock
        (lt_of_eq_of_lt hclocktime hnow) ⟨i, a, ha, lt_of_le_of_lt hdue hlater, hlt⟩
    rw [show ({ s with clock := clock } : Events ε π θ).clock.time = time from hclocktime] at hpushes
    rw [show ({ s with clock := clock } : Events ε π θ).clock.nextActivation_ms =
      s.clock.nextActivation_ms from hact] at hact'
    have hnow'' : s'.clock.time = s.clock.time := htime'.trans hnow'
    refine ⟨s', [f], hret, ⟨rfl, hnow''.trans hs, y, hplays', ?_, _,
      hlog.step hsteps hdue hbefore hpushes⟩,
      hnow'', ?_⟩
    · exact fun t ht => (hbefore t ht).trans hsteps.later
    · apply lateness_later List.not_mem_nil (List.Perm.refl _) hnow'' hact'
      · rw [hplays.activation, hs]
        exact hdue
      · rw [hplays.activation]
        exact hsteps.later
  obtain ⟨s', q, hret, ⟨rfl, hs', y, hplays, hbefore, hlog⟩, _, hnone⟩ :=
    handleEvents_drains (fun s q hI => by
      obtain ⟨rfl, _, x, hplays, _⟩ := hI
      exact hplays.represents) hhandle hstart
  have hlast : time < y.due := by
    rw [← hs', ← hplays.activation]
    exact hnone e List.mem_cons_self
  refine ⟨⟨s', m.runs ++ [time]⟩, y, ⟨⟨?_, i, a, ha, ?_, hlt⟩, ?_⟩, ⟨hplays, ?_, ?_, hlog⟩, rfl⟩
  · rw [htime]
    exact hnow
  · rw [htime]
    exact hlater
  · rw [← hs']
    exact hret.bind (returns_ok _)
  · intro t ht
    rcases List.mem_append.mp ht with ht | ht
    · exact hbefore t ht
    · rw [List.mem_singleton.mp ht]
      exact hlast
  · intro t ht
    show t ≤ s'.clock.time
    rw [hs']
    rcases List.mem_append.mp ht with ht | ht
    · exact hpast t ht
    · exact (List.mem_singleton.mp ht).le

private theorem run_upToDate {spans : List Nat} (h : UpToDate c e p m x)
    (hrun : Run (Tick c.due c.entries) m spans m') : ∃ y, UpToDate c e p m' y := by
  apply hrun.invariant (I := fun m : Playback ε π θ => ∃ y, UpToDate c e p m y) ⟨x, h⟩
  intro a span b ha hstep
  obtain ⟨y, hy⟩ := ha
  obtain ⟨b', z, hstep', hz, _⟩ := hy.tick hstep.1
  rw [hstep.2.unique hstep'.2]
  exact ⟨z, hz⟩

/-- Fresh events on a clock at `t₀`, and a schedule with the triggers of `ts` that does not play. -/
structure Loaded (t₀ : Nat) (offsetTime : θ → Nat) (p : π) (ts : List θ) (s : Events ε π θ) : Prop where
  clock : s.clock = Clock.empty t₀
  event : ∀ e, s.event e = .init
  trace : s.trace = []
  idle : (s.schedules.schedule p).activeTrigger = none
  triggers : ∃ k, Schedules.Lists offsetTime s.schedules p k ∧ k.Perm ts

variable {t₀ period offset : Nat} {offsetTime : θ → Nat} {ts : List θ}

theorem loaded_init : Loaded t₀ offsetTime p [] (Events.init t₀ offsetTime : Events ε π θ) :=
  ⟨rfl, fun _ => rfl, rfl, rfl, [], Schedules.lists_init p, List.Perm.refl _⟩

theorem Loaded.add {t : θ} (h : Loaded t₀ offsetTime p ts s) (ht : t ∉ ts) :
    ∃ s', Events.Step s (.add p t) s' ∧ Loaded t₀ offsetTime p (ts ++ [t]) s' := by
  obtain ⟨k, hlists, hperm⟩ := h.triggers
  obtain ⟨schedules, k', hret, hlists', hperm', hidle⟩ :=
    hlists.sortIn (fun hmem => ht (hperm.subset hmem))
  refine ⟨{ s with schedules := schedules }, hret.bind (returns_ok _),
    ⟨h.clock, h.event, h.trace, hidle.trans h.idle, k', hlists', ?_⟩⟩
  exact (hperm'.trans (hperm.cons t)).trans (List.perm_append_singleton t ts).symm

theorem run_add (hnodup : ts.Nodup)
    (h : Run Events.Step (Events.init t₀ offsetTime) (ts.map (.add p)) s) :
    Loaded t₀ offsetTime p ts s := by
  induction ts using List.reverseRecOn generalizing s with
  | nil =>
      rw [← run_nil.mp h]
      exact loaded_init
  | append_singleton ts t ih =>
      rw [List.map_append] at h
      obtain ⟨s₁, hrun, hstep⟩ := run_snoc.mp h
      obtain ⟨hts, _, hdisjoint⟩ := List.nodup_append.mp hnodup
      have ht : t ∉ ts := fun hmem => hdisjoint t hmem t List.mem_cons_self rfl
      obtain ⟨s', hstep', hloaded⟩ := (ih hts hrun).add ht
      rw [hstep.unique hstep']
      exact hloaded

private theorem Loaded.first (h : Loaded t₀ offsetTime p ts s) {start : Nat} (hstart : start < 2 ^ 64)
    (hperiod : period < 2 ^ 64) (hnodup : ts.Nodup) (hinside : ∀ t ∈ ts, offsetTime t < period)
    (hfirst : ∃ t ∈ ts, dueTime start period offsetTime 0 t < 2 ^ 63) :
    ∃ (c : TimedCycle θ) (x : c.Position) (schedules : Schedules π θ), c.entries.Perm ts ∧
      c.due = dueTime start period offsetTime ∧ c.period = period ∧ x.pass = 0 ∧ x.played = [] ∧
      x.due < 2 ^ 63 ∧ (s.schedules.schedule p).triggers ≠ none ∧
      (s.schedules.configured p start period).stepToNextTriggerOffset p = .ok (schedules, x.due) ∧
      schedules.IsAt c p x := by
  obtain ⟨k, hlists, hperm⟩ := h.triggers
  obtain ⟨t, ht, hlt⟩ := hfirst
  obtain ⟨b, k', rfl⟩ : ∃ b k', k = b :: k' := List.exists_cons_of_ne_nil fun hnil => by
    rw [hnil] at hperm
    rw [← hperm.nil_eq] at ht
    exact absurd ht List.not_mem_nil
  let c : TimedCycle θ := {
    entries := b :: k'
    offset := offsetTime
    start := start
    period := period
    sorted := hlists.sorted
    inside := fun t ht => hinside t (hperm.subset ht)
    nodup := hperm.nodup_iff.mpr hnodup }
  let x : c.Position := TimedCycle.Position.first 0 rfl
  have hle : x.due ≤ c.due 0 t :=
    TimedCycle.Position.due_le_of_not_played (hperm.symm.subset ht) List.not_mem_nil
  have hdue : x.due < 2 ^ 63 := lt_of_le_of_lt hle hlt
  have hxb : start + offsetTime b = x.due := by
    show _ = start + 0 * period + offsetTime b
    rw [Nat.zero_mul, Nat.add_zero]
  have hb : (s.schedules.schedule p).triggers = some b := hlists.chain.1
  have hend : (s.schedules.schedule p).activeTrigger.bind s.schedules.next = none := by
    rw [h.idle]
    rfl
  have hstep := Schedules.configured_step hend hb hstart hperiod
  rw [hlists.offset b, hxb, Nat.mod_eq_of_lt (by omega : x.due < 2 ^ 64)] at hstep
  refine ⟨c, x, _, hperm, rfl, rfl, rfl, rfl, hdue, ?_, hstep, hlists.setSchedule rfl, ?_, ?_, ?_⟩
  · rw [hb]
    exact Option.some_ne_none b
  · rw [Schedules.setSchedule_schedule]
    rfl
  · rw [Schedules.setSchedule_schedule]
  · rw [Schedules.setSchedule_schedule]
    show start = start + 0 * period
    rw [Nat.zero_mul, Nat.add_zero]

private theorem Loaded.setPeriodicSchedule (h : Loaded t₀ offsetTime p ts s) (ht : t₀ < 2 ^ 63)
    (hperiod : period < 2 ^ 64) (hnodup : ts.Nodup) (hinside : ∀ t ∈ ts, offsetTime t < period)
    (hfirst : ∃ t ∈ ts, dueTime (configuredStart t₀ period offset) period offsetTime 0 t < 2 ^ 63) :
    ∃ (c : TimedCycle θ) (x : c.Position) (s' : Events ε π θ), c.entries.Perm ts ∧
      c.due = dueTime (configuredStart t₀ period offset) period offsetTime ∧
      x.pass = 0 ∧ Events.Step s (.setPeriodicSchedule e period offset p) s' ∧
      s'.clock.time = t₀ ∧
      if x.due < period then UpToDate c e p ⟨s', []⟩ x else s'.clock.Represents [] := by
  have hp : 0 < period := by
    obtain ⟨t, ht, _⟩ := hfirst
    exact Nat.zero_lt_of_lt (hinside t ht)
  have htime : s.clock.time = t₀ := by
    rw [h.clock]
    rfl
  have hrep : s.clock.Represents [] := by
    rw [h.clock]
    exact represents_empty t₀
  have hnone : e ∈ ([] : List ε) → s.clock.queued e = true := fun he => absurd he List.not_mem_nil
  have hpushes : s.pushes = [] := by
    rw [pushes, h.trace]
    rfl
  have hstart : configuredStart t₀ period offset < 2 ^ 64 := by
    obtain ⟨t, _, hlt⟩ := hfirst
    unfold dueTime at hlt
    omega
  obtain ⟨c, x, schedules, hperm, hcdue, hc, hpass, hplayed, hdue, htriggers, hstep, hat⟩ :=
    h.first hstart hperiod hnodup hinside hfirst
  rw [← htime] at hstep ht
  obtain ⟨s', r, hret, hschedules, hclock, hsame, hpushes', hqueued⟩ :=
    setPeriodicSchedule_returns hrep hnone htriggers hp (fun _ => hdue) ht hstep
  rw [← hschedules] at hat
  refine ⟨c, x, s', hperm, hcdue, hpass, hret, hsame.trans htime, ?_⟩
  by_cases hin : x.due < period
  · rw [if_pos hin] at hqueued ⊢
    obtain ⟨hperm', hevent, hact, _⟩ := hqueued
    obtain rfl : r = [e] := List.perm_singleton.mp hperm'
    rw [← hc] at hevent
    refine ⟨⟨hat, hevent, hact, hclock⟩, ?_, ?_, [], hpushes'.trans hpushes, hplayed.symm, ?_⟩
    · exact fun t ht => absurd ht List.not_mem_nil
    · exact fun t ht => absurd ht List.not_mem_nil
    · exact fun push hpush => absurd hpush List.not_mem_nil
  · rw [if_neg hin] at hqueued ⊢
    rw [hqueued.1] at hclock
    exact hclock

/-- Once the event is queued, every run of ticks pushes each trigger exactly once for each pass, in the
first run of `handleEvents` in which it is due, and in the order of the due times. -/
theorem run_plays (ht : t₀ < 2 ^ 63) (hperiod : period < 2 ^ 64) (hnodup : ts.Nodup)
    (hinside : ∀ t ∈ ts, offsetTime t < period) {s₁ s₂ : Events ε π θ} {q : List ε} {spans : List Nat}
    (hadd : Run Events.Step (Events.init t₀ offsetTime) (ts.map (.add p)) s₁)
    (hset : Events.Step s₁ (.setPeriodicSchedule e period offset p) s₂)
    (hchain : Chain s₂.clock.next s₂.clock.queueHead q) (hqueued : e ∈ q)
    {due : Nat → θ → Nat}
    (hdue : due = dueTime (configuredStart t₀ period offset) period offsetTime)
    (hfirst : ∃ t ∈ ts, due 0 t < 2 ^ 63) (h : Run (Tick due ts) ⟨s₂, []⟩ spans m) :
    (∀ span, m.Legal due ts span → ∃ m', Tick due ts m span m') ∧
      ∃ log : List (Push θ), m.events.pushes = log.map (fun push => (push.run, push.trigger)) ∧
        (log.map fun push => (push.pass, push.trigger)).Nodup ∧
        (log.Pairwise fun x y => due x.pass x.trigger ≤ due y.pass y.trigger) ∧
        (∀ push ∈ log, push.trigger ∈ ts ∧ InTime due m.runs push) ∧
        ∀ i, ∀ t ∈ ts, (∃ time ∈ m.runs, due i t ≤ time) →
          ∃ push ∈ log, push.pass = i ∧ push.trigger = t := by
  subst hdue
  obtain ⟨c, x, s', hperm, hdue, _, hstep, _, hplays⟩ :=
    (run_add hnodup hadd).setPeriodicSchedule (e := e) ht hperiod hnodup hinside hfirst
  rw [← hdue] at h ⊢
  have hmem : ∀ t, t ∈ ts ↔ t ∈ c.entries := fun t => hperm.mem_iff.symm
  obtain rfl := hset.unique hstep
  have hin : x.due < period := by
    by_contra hout
    rw [if_neg hout] at hplays
    rw [Chain.unique hchain hplays.chain] at hqueued
    exact List.not_mem_nil hqueued
  rw [if_pos hin] at hplays
  obtain ⟨y, hy⟩ := run_upToDate hplays
    (h.mono fun a span b hstep => ⟨(legal_congr hmem).mp hstep.1, hstep.2⟩)
  obtain ⟨log, hlog⟩ := hy.recorded
  refine ⟨?_, log, hlog.pushes, ?_, ?_, ?_, ?_⟩
  · intro span hspan
    obtain ⟨m', _, hstep', _⟩ := hy.tick ((legal_congr hmem).mp hspan)
    exact ⟨m', hspan, hstep'.2⟩
  · rw [hlog.played]
    exact TimedCycle.played_nodup y.before_sublist
  · have hordered := TimedCycle.played_ordered (n := y.pass) y.before_sublist
    rw [show c.played y.pass y.before = y.played from rfl, ← hlog.played, List.pairwise_map] at hordered
    exact hordered
  · intro push hpush
    refine ⟨(hmem _).mpr ?_, hlog.inTime push hpush⟩
    have hplayed : (push.pass, push.trigger) ∈ y.played := by
      rw [← hlog.played]
      exact List.mem_map_of_mem hpush
    rcases TimedCycle.Position.mem_played.mp hplayed with ⟨_, ht⟩ | ⟨_, ht⟩
    · exact ht
    · exact y.before_sublist.subset ht
  · intro i t ht hreached
    obtain ⟨time, htime, hle⟩ := hreached
    have hplayed : (i, t) ∈ y.played := by
      by_contra hnot
      have hlater := TimedCycle.Position.due_le_of_not_played ((hmem t).mp ht) hnot
      exact absurd (hy.before time htime) (not_lt_of_ge (hlater.trans hle))
    rw [← hlog.played] at hplayed
    obtain ⟨push, hpush, heq⟩ := List.mem_map.mp hplayed
    exact ⟨push, hpush, (Prod.mk.inj heq).1, (Prod.mk.inj heq).2⟩

/-- The tick jumps over the begin of the second pass: the first trigger is pushed for it. -/
theorem run_plays_twoTriggers : ∃ (s₁ s₂ : Events Nat Unit Nat) (m : Playback Nat Unit Nat),
    Run Events.Step (Events.init 0 (3 * · + 2)) [.add () 0, .add () 1] s₁ ∧
    Events.Step s₁ (.setPeriodicSchedule 0 10 0 ()) s₂ ∧
    Run (Tick (dueTime 0 10 (3 * · + 2)) [0, 1]) ⟨s₂, []⟩ [12] m ∧ (12, 0) ∈ m.events.pushes := by
  obtain ⟨a₁, hadd₁, hloaded₁⟩ := (loaded_init : Loaded 0 (3 * · + 2) () []
    (Events.init 0 (3 * · + 2) : Events Nat Unit Nat)).add (t := 0) List.not_mem_nil
  obtain ⟨a₂, hadd₂, hloaded₂⟩ := hloaded₁.add (t := 1) (by decide)
  have hadd := (Run.start.next hadd₁).next hadd₂
  have hinside : ∀ t ∈ [0, 1], 3 * t + 2 < 10 := by decide
  have hfirst : ∃ t ∈ [0, 1], dueTime (configuredStart 0 10 0) 10 (3 * · + 2) 0 t < 2 ^ 63 :=
    ⟨0, by decide, by decide⟩
  obtain ⟨c, x, s₂, hperm, hdue, hpass, hset, htime, hplays⟩ :=
    hloaded₂.setPeriodicSchedule (e := 0) (by decide) (by decide) (by decide) hinside hfirst
  have hdue' : c.due = dueTime 0 10 (3 * · + 2) := hdue
  have hin : x.due < 10 := by
    rw [TimedCycle.Position.due, hdue', hpass, dueTime, Nat.zero_mul, Nat.zero_add]
    exact hinside _ (hperm.subset x.active_mem)
  rw [if_pos hin] at hplays
  have hlegal : Legal (dueTime 0 10 (3 * · + 2)) [0, 1] (⟨s₂, []⟩ : Playback Nat Unit Nat) 12 := by
    refine ⟨?_, 1, 1, by decide, ?_⟩
    · rw [htime]
      decide
    · rw [htime]
      decide
  have hmem : ∀ t, t ∈ [0, 1] ↔ t ∈ c.entries := fun t => hperm.mem_iff.symm
  rw [← hdue'] at hlegal
  obtain ⟨m, y, htick, _, hruns⟩ := hplays.tick ((legal_congr hmem).mp hlegal)
  have hrun : Run (Tick (dueTime 0 10 (3 * · + 2)) [0, 1]) ⟨s₂, []⟩ [12] m := by
    rw [← hdue']
    exact Run.start.next ⟨hlegal, htick.2⟩
  obtain ⟨_, log, hpushes, _, _, hin, hall⟩ :=
    run_plays (by decide) (by decide) (by decide) hinside hadd
    hset hplays.plays.represents.chain List.mem_cons_self rfl hfirst hrun
  have hruns' : m.runs = [12] := by
    rw [hruns, htime]
    rfl
  obtain ⟨push, hpush, hpass', htrigger⟩ :=
    hall 1 0 (by decide) ⟨12, by rw [hruns']; exact List.mem_cons_self, by decide⟩
  have hrun12 : push.run = 12 := by
    have hmem := (hin push hpush).2.run
    rw [hruns'] at hmem
    exact List.mem_singleton.mp hmem
  refine ⟨a₂, s₂, m, hadd, hset, hrun, ?_⟩
  rw [hpushes]
  apply List.mem_map.mpr
  exact ⟨push, hpush, by rw [hrun12, htrigger]⟩

end Playback

end TaskingFramework
