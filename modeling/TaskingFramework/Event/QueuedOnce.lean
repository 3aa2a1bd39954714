import TaskingFramework.Event.HandleEvents

/-!
# Events are queued once

The operations of events, the handling of the pending ones and the passing of time, in any order. A
call that starts its event for the current time or before leaves the event unmarked in the queue, so
that the next start would insert it a second time. These calls are the only ones that break the queue.
-/

set_option linter.unusedSectionVars false

namespace TaskingFramework

open Foundation

namespace Events

open Clock

variable {ε π θ : Type} [DecidableEq ε] [DecidableEq π] [DecidableEq θ]
  {s s' : Events ε π θ} {q r : List ε} {e : ε} {t : Nat} {c : EventCall ε π θ}

/-- The operations without schedules, as long as the times keep below the sign bit. -/
def Legal (s : Events ε π θ) : EventCall ε π θ → Prop
  | .setPeriodicTiming _ period offset => configuredStart s.clock.time period offset < 2 ^ 63
  | .setRelativeTiming _ _ => True
  | .trigger _ time => s.clock.time + time < 2 ^ 63
  | .stop _ => True
  | .reset e => (s.event e).configured = true → (s.event e).periodical = false →
      s.clock.time + (s.event e).period_ms < 2 ^ 63
  | .handleEvents => ∀ e, s.clock.queued e = true → (s.event e).periodical = true →
      s.clock.nextActivation_ms e ≤ s.clock.time →
      nextPeriod (s.clock.nextActivation_ms e) (s.event e).period_ms s.clock.time < 2 ^ 63
  | .advance span => s.clock.time + span < 2 ^ 63
  | .setPeriodicSchedule .. => False
  | .add .. => False

/-- The call starts its event for a time that is not in the future. -/
def StartsDue (s : Events ε π θ) : EventCall ε π θ → Prop
  | .setPeriodicTiming _ period offset =>
      configuredStart s.clock.time period offset ≤ s.clock.time
  | .reset e => (s.event e).configured = true ∧ (s.event e).periodical = false ∧
      (s.event e).period_ms = 0
  | _ => False

/-- What holds between the operations, as long as none of them starts its event due. -/
structure Intact (s : Events ε π θ) (q : List ε) : Prop where
  now : s.clock.time < 2 ^ 63
  marked : s.clock.Marked q
  plain : s.Plain

private theorem intact_init (offsetTime : θ → Nat) (ht : t < 2 ^ 63) :
    (init t offsetTime : Events ε π θ).Intact [] :=
  ⟨ht, marked_empty t, fun _ => rfl, fun _ h => absurd h Bool.false_ne_true⟩

private theorem Plain.setEvent (h : s.Plain) {event : EventImpl π}
    (hschedule : event.periodicSchedule = none)
    (hperiod : event.periodical = true → 0 < event.period_ms) : (s.setEvent e event).Plain := by
  constructor
  · intro f
    show (Function.update s.event e event f).periodicSchedule = none
    by_cases hf : f = e
    · rw [hf, Function.update_self]
      exact hschedule
    · rw [Function.update_of_ne hf]
      exact h.unscheduled f
  · intro f
    show (Function.update s.event e event f).periodical = true →
      0 < (Function.update s.event e event f).period_ms
    by_cases hf : f = e
    · rw [hf, Function.update_self]
      exact hperiod
    · rw [Function.update_of_ne hf]
      exact h.period f

private theorem Intact.dequeue (h : s.Intact q) (e : ε) :
    ∃ s', Returns (fun fuel => s.dequeue fuel e) s' ∧ s'.Intact (q.erase e) ∧ s'.event = s.event ∧
      s'.clock.time = s.clock.time := by
  obtain ⟨clock, hret, hmarked, htime, _⟩ := h.marked.dequeue e
  have hnow : clock.time < 2 ^ 63 := lt_of_eq_of_lt htime h.now
  exact ⟨_, hret.bind (returns_ok _), ⟨hnow, hmarked, h.plain.congr rfl⟩, rfl, htime⟩

private theorem Intact.dequeueQueued (h : s.Intact q) (e : ε) :
    ∃ s', Returns (fun fuel => s.dequeueQueued fuel e) s' ∧ s'.Intact (q.erase e) ∧
      s'.event = s.event ∧ s'.clock.time = s.clock.time := by
  cases hqueued : s.clock.queued e with
  | true =>
      simp only [Events.dequeueQueued, hqueued, if_true]
      exact h.dequeue e
  | false =>
      have he : e ∉ q := by
        intro he
        rw [h.marked.marked e he] at hqueued
        simp at hqueued
      simp only [Events.dequeueQueued, hqueued, Bool.false_eq_true, if_false]
      rw [List.erase_of_not_mem he]
      exact ⟨s, returns_ok s, h, rfl, rfl⟩

private theorem Intact.notMem_erase (h : s.Intact q) (e : ε) : e ∉ q.erase e :=
    h.marked.nodup.not_mem_erase

private theorem Intact.startAt (h : s.Intact q) (he : e ∉ q) (ht : t < 2 ^ 63)
    (hnow : s.clock.time < t) :
    ∃ s' q', Returns (fun fuel => s.startAt fuel e t) s' ∧ s'.Intact q' := by
  obtain ⟨clock, wake, q', hret, hmarked, htime, _⟩ := h.marked.startAt he ht hnow
  have hnow' : clock.time < 2 ^ 63 := lt_of_eq_of_lt htime h.now
  exact ⟨_, q', hret.bind (returns_ok _), hnow', hmarked, h.plain.congr rfl⟩

private theorem Intact.startIn (h : s.Intact q) (he : e ∉ q) (ht : s.clock.time + t < 2 ^ 63)
    (ht0 : t ≠ 0) : ∃ s' q', Returns (fun fuel => s.startIn fuel e t) s' ∧ s'.Intact q' := by
  obtain ⟨clock, wake, q', hret, hmarked, htime⟩ := h.marked.startIn he ht ht0
  have hnow' : clock.time < 2 ^ 63 := lt_of_eq_of_lt htime h.now
  exact ⟨_, q', hret.bind (returns_ok _), hnow', hmarked, h.plain.congr rfl⟩

private theorem Intact.configure (h : s.Intact q) (he : e ∉ q) (period offset : Nat) :
    let s₁ := s.configurePeriodicTiming e period offset
    let s₂ := s₁.setEvent e { s₁.event e with periodicSchedule := none }
    s₂.Intact q ∧
      s₂.clock.nextActivation_ms e = configuredStart s.clock.time period offset := by
  intro s₁ s₂
  have hevent : s₁.event e = { s.event e with
      period_ms := period
      periodical := decide (0 < period)
      configured := decide (0 < period) } := Function.update_self e _ s.event
  have hplain : s₁.Plain := by
    let clock := s.clock.setNextActivation e (configuredStart s.clock.time period offset)
    have hs : ({ s with clock := clock } : Events ε π θ).Plain := h.plain.congr rfl
    exact hs.setEvent (h.plain.unscheduled e) of_decide_eq_true
  refine ⟨⟨h.now, h.marked.setNextActivation he _, hplain.setEvent rfl ?_⟩, ?_⟩
  · rw [hevent]
    exact of_decide_eq_true
  · exact Function.update_self e _ s.clock.nextActivation_ms

private theorem Intact.perform (h : s.Intact q) (hc : s.Legal c) (hdue : ¬ s.StartsDue c) :
    ∃ s' q', Returns (fun fuel => s.perform fuel c) s' ∧ s'.Intact q' := by
  cases c with
  | setPeriodicTiming e period offset =>
      obtain ⟨s₁, hret, h₁, _, htime⟩ := h.dequeueQueued e
      obtain ⟨h₂, hstart⟩ := h₁.configure (h.notMem_erase e) period offset
      rw [htime] at hstart
      obtain ⟨s', q', hret', h'⟩ := h₂.startAt (h.notMem_erase e) (hstart ▸ hc)
        (lt_of_eq_of_lt htime (hstart ▸ lt_of_not_ge hdue))
      exact ⟨s', q', hret.bind hret', h'⟩
  | setPeriodicSchedule e period offset schedule => exact absurd hc id
  | setRelativeTiming e delay =>
      obtain ⟨s₁, hret, h₁, _, _⟩ := h.dequeueQueued e
      refine ⟨_, _, hret.bind (returns_ok _), h₁.now, h₁.marked, ?_⟩
      exact h₁.plain.setEvent (h₁.plain.unscheduled e) fun hf => absurd hf Bool.false_ne_true
  | trigger e time =>
      simp only [Events.perform, Events.trigger]
      cases hconf : (s.event e).configured with
      | true =>
          simp only [if_true]
          exact ⟨s, q, returns_ok s, h⟩
      | false =>
          simp only [Bool.false_eq_true, if_false]
          obtain ⟨s₁, hret, h₁, _, htime⟩ := h.dequeueQueued e
          by_cases ht : time = 0
          · simp only [ht, if_true]
            refine ⟨_, q.erase e, hret.bind (returns_ok _), ?_⟩
            split
            · exact ⟨h₁.now, h₁.marked, h₁.plain.congr rfl⟩
            · exact h₁
          · simp only [ht, if_false]
            have hlt : s₁.clock.time + time < 2 ^ 63 := by
              rw [htime]
              exact hc
            obtain ⟨s', q', hret', h'⟩ := h₁.startIn (h.notMem_erase e) hlt ht
            exact ⟨s', q', hret.bind hret', h'⟩
  | stop e =>
      obtain ⟨s₁, hret, h₁, _, _⟩ := h.dequeue e
      refine ⟨_, _, hret.bind (returns_ok _), h₁.now, h₁.marked, ?_⟩
      exact h₁.plain.setEvent rfl (h₁.plain.period e)
  | reset e =>
      simp only [Events.perform, Events.reset]
      by_cases hrel : ((s.event e).configured && !(s.event e).periodical) = true
      · simp only [hrel, if_true]
        rw [Bool.and_eq_true, Bool.not_eq_true'] at hrel
        obtain ⟨s₁, hret, h₁, hevent, htime⟩ := h.dequeueQueued e
        have hlt : s₁.clock.time + (s₁.event e).period_ms < 2 ^ 63 := by
          rw [htime, hevent]
          exact hc hrel.1 hrel.2
        have hne : (s₁.event e).period_ms ≠ 0 := by
          rw [hevent]
          exact fun heq => hdue ⟨hrel.1, hrel.2, heq⟩
        obtain ⟨s', q', hret', h'⟩ := h₁.startIn (h.notMem_erase e) hlt hne
        exact ⟨s', q', hret.bind hret', h'⟩
      · simp only [hrel, Bool.false_eq_true, if_false]
        exact ⟨s, q, returns_ok s, h⟩
  | add schedule trigger => exact absurd hc id
  | handleEvents =>
      have hb : s.Bounded q := fun e he => hc e (h.marked.marked e he)
      obtain ⟨s', q', hret, hevent, htime, hmarked⟩ :=
        handleEvents_returns h.plain h.marked.pending h.now hb
      exact ⟨s', q', hret, lt_of_eq_of_lt htime h.now, hmarked, h.plain.congr hevent⟩
  | advance span =>
      exact ⟨_, q, returns_ok _, hc, h.marked.advance (Nat.le_add_right _ _), h.plain.congr rfl⟩

private theorem not_wellQueued {s : Clock ε} (h : s.Represents (e :: r)) (he : s.queued e = false) :
    ¬ ∃ q, s.WellQueued q := by
  rintro ⟨q, hq⟩
  have heq : e ∈ q := by
    rw [Chain.unique hq.chain h.chain]
    exact List.mem_cons_self
  rw [(hq.queued e).mpr heq] at he
  simp at he

private theorem Intact.perform_due (h : s.Intact q) (hdue : s.StartsDue c) :
    ∃ s', Returns (fun fuel => s.perform fuel c) s' ∧ ¬ ∃ q, s'.clock.WellQueued q := by
  cases c with
  | setPeriodicTiming e period offset =>
      obtain ⟨s₁, hret, h₁, _, htime⟩ := h.dequeueQueued e
      have he := h.notMem_erase e
      obtain ⟨h₂, hstart⟩ := h₁.configure he period offset
      rw [htime] at hstart
      have hle : configuredStart s.clock.time period offset ≤ s₁.clock.time :=
        le_of_le_of_eq hdue htime.symm
      obtain ⟨clock, hret', hrep, _, _, hqueued, _⟩ :=
        startAt_due h₂.marked.toRepresents he (Nat.le_add_left_of_le h₂.now.le) (hstart ▸ hle)
      have hunmarked : clock.queued e = false := by
        rw [hqueued]
        exact (h₂.marked.outside e he).1
      exact ⟨_, hret.bind (hret'.bind (returns_ok _)), not_wellQueued hrep hunmarked⟩
  | reset e =>
      obtain ⟨hconf, hper, hzero⟩ := hdue
      obtain ⟨s₁, hret, h₁, hevent, _⟩ := h.dequeueQueued e
      have he := h.notMem_erase e
      obtain ⟨clock, hret', hrep, _, _, hqueued, _⟩ := startIn_zero h₁.marked.toRepresents he
      have hzero' : (s₁.event e).period_ms = 0 := hevent ▸ hzero
      have hunmarked : clock.queued e = false := by
        rw [hqueued]
        exact (h₁.marked.outside e he).1
      refine ⟨{ s₁ with clock := clock }.emit (.wake ⟨true, none⟩), ?_, not_wellQueued hrep hunmarked⟩
      simp only [Events.perform, Events.reset, hconf, hper, Bool.not_false, Bool.and_self, if_true]
      refine hret.bind ?_
      simp only [hzero']
      exact hret'.bind (returns_ok _)
  | setPeriodicSchedule e period offset schedule => exact absurd hdue id
  | setRelativeTiming e delay => exact absurd hdue id
  | trigger e time => exact absurd hdue id
  | stop e => exact absurd hdue id
  | add schedule trigger => exact absurd hdue id
  | handleEvents => exact absurd hdue id
  | advance span => exact absurd hdue id

def Step (s : Events ε π θ) (c : EventCall ε π θ) (s' : Events ε π θ) : Prop :=
  Returns (fun fuel => s.perform fuel c) s'

theorem run_unique {s₀ : Events ε π θ} {l : List (EventCall ε π θ)} (h : Run Step s₀ l s)
    (h' : Run Step s₀ l s') : s = s' := by
  apply h.unique _ h'
  intro a c b b' hb hb'
  exact Returns.unique hb hb'

/-- Every call returns, and the queue is in order in front of the calls and behind each of them. -/
def KeepsQueue (s₀ : Events ε π θ) (l : List (EventCall ε π θ)) : Prop :=
  (∃ s, Run Step s₀ l s) ∧ Throughout Step s₀ (fun s => ∃ q, s.clock.WellQueued q) l

private theorem run_intact {s₀ : Events ε π θ} (h₀ : s₀.Intact q) {l : List (EventCall ε π θ)}
    (hlegal : Along Step s₀ Legal l) (hdue : Along Step s₀ (fun s c => ¬ s.StartsDue c) l) :
    ∃ s q', Run Step s₀ l s ∧ s.Intact q' ∧
      Throughout Step s₀ (fun s => ∃ q, s.clock.WellQueued q) l := by
  induction l using List.reverseRecOn with
  | nil => exact ⟨s₀, q, .start, h₀, throughout_nil.mpr ⟨q, h₀.marked.wellQueued⟩⟩
  | append_singleton l c ih =>
      obtain ⟨hlegal, hc⟩ := along_snoc.mp hlegal
      obtain ⟨hdue, hcdue⟩ := along_snoc.mp hdue
      obtain ⟨s, q', hrun, hintact, hall⟩ := ih hlegal hdue
      obtain ⟨s', q'', hstep, hintact'⟩ := hintact.perform (hc s hrun) (hcdue s hrun)
      have hrun' : Run Step s₀ (l ++ [c]) s' := hrun.next hstep
      refine ⟨s', q'', hrun', hintact', throughout_snoc.mpr ⟨hall, ?_⟩⟩
      intro t ht
      rw [run_unique ht hrun']
      exact ⟨q'', hintact'.marked.wellQueued⟩

/-- The legal sequences of calls that keep the queue in order are those in which no call starts its
event for a time that is not in the future. -/
theorem keepsQueue_iff {t₀ : Nat} (ht : t₀ < 2 ^ 63) (offsetTime : θ → Nat)
    {l : List (EventCall ε π θ)} (hlegal : Along Step (init t₀ offsetTime) Legal l) :
    KeepsQueue (init t₀ offsetTime) l ↔
      Along Step (init t₀ offsetTime) (fun s c => ¬ s.StartsDue c) l := by
  have h₀ : (init t₀ offsetTime : Events ε π θ).Intact [] := intact_init offsetTime ht
  constructor
  · intro h
    obtain ⟨⟨s, hrun⟩, hall⟩ := h
    induction l using List.reverseRecOn generalizing s with
    | nil => exact along_nil
    | append_singleton l c ih =>
        obtain ⟨hlegal, _⟩ := along_snoc.mp hlegal
        obtain ⟨hbefore, hlast⟩ := throughout_snoc.mp hall
        obtain ⟨s₁, hrun₁, hstep⟩ := run_snoc.mp hrun
        have hdue := ih hlegal hbefore s₁ hrun₁
        apply along_snoc.mpr ⟨hdue, _⟩
        intro t ht hcdue
        obtain ⟨s₂, q, hrun₂, hintact, _⟩ := run_intact h₀ hlegal hdue
        rw [run_unique ht hrun₂] at hcdue
        obtain ⟨s₃, hstep₃, hbroken⟩ := hintact.perform_due hcdue
        exact hbroken (hlast s₃ (hrun₂.next hstep₃))
  · intro hdue
    obtain ⟨s, _, hrun, _, hall⟩ := run_intact h₀ hlegal hdue
    exact ⟨⟨s, hrun⟩, hall⟩

theorem keepsQueue_stop : KeepsQueue (init 0 fun _ => 0 : Events Nat Unit Unit)
    [.setPeriodicTiming 0 10 3, .setRelativeTiming 1 5, .stop 0] := by
  let s₀ : Events Nat Unit Unit := init 0 fun _ => 0
  have hlegal : Along Step s₀ Legal
      (([] ++ [.setPeriodicTiming 0 10 3]) ++ [.setRelativeTiming 1 5] ++ [.stop 0]) := by
    refine along_snoc.mpr ⟨along_snoc.mpr ⟨along_snoc.mpr ⟨along_nil, ?_⟩, ?_⟩, ?_⟩
    · intro t ht
      rw [← run_nil.mp ht]
      show configuredStart 0 10 3 < 2 ^ 63
      decide
    · exact fun _ _ => trivial
    · exact fun _ _ => trivial
  have hdue : Along Step s₀ (fun s c => ¬ s.StartsDue c)
      (([] ++ [.setPeriodicTiming 0 10 3]) ++ [.setRelativeTiming 1 5] ++ [.stop 0]) := by
    refine along_snoc.mpr ⟨along_snoc.mpr ⟨along_snoc.mpr ⟨along_nil, ?_⟩, ?_⟩, ?_⟩
    · intro t ht
      rw [← run_nil.mp ht]
      show ¬ configuredStart 0 10 3 ≤ 0
      decide
    · exact fun _ _ => id
    · exact fun _ _ => id
  exact (keepsQueue_iff (by decide) (fun _ => 0) hlegal).mpr hdue

private theorem not_chain_of_self {next : ε → Option ε} (h : next e = some e) (l : List ε) :
    ¬ Chain next (some e) l := by
  induction l with
  | nil => exact fun hl => Option.some_ne_none e hl
  | cons a l ih =>
      intro hl
      have ha : e = a := Option.some.inj hl.1
      apply ih
      rw [← h]
      exact ha ▸ hl.2

private theorem searchEvent_self {s : Clock ε} {f : ε} (h : s.next e = some e) (hf : e ≠ f) (fuel : Nat)
    (previous : Option ε) : searchEvent s f fuel (some e) previous = .error .outOfFuel := by
  induction fuel generalizing previous with
  | zero => rfl
  | succ fuel ih =>
      rw [searchEvent, if_neg hf, h]
      exact ih (some e)

private theorem setPeriodicTiming_due (fuel : Nat) {period offset : Nat} (h : s.clock.queued e = false)
    (hnow : s.clock.time < 2 ^ 63)
    (hdue : configuredStart s.clock.time period offset ≤ s.clock.time) :
    s.setPeriodicTiming fuel e period offset =
      let s₁ := s.configurePeriodicTiming e period offset
      let s₂ := s₁.setEvent e { s₁.event e with periodicSchedule := none }
      Clock.enqueueHead fuel (s₂.clock.setNextActivation e (s₂.clock.nextActivation_ms e)) e >>=
        fun clock => .ok ({ s₂ with clock := clock }.emit (.wake ⟨true, none⟩)) := by
  have hstart : (s.configurePeriodicTiming e period offset).clock.nextActivation_ms e =
      configuredStart s.clock.time period offset :=
    Function.update_self e _ s.clock.nextActivation_ms
  have hqueued : (s.configurePeriodicTiming e period offset).clock.queued e = false := h
  have htime : (s.configurePeriodicTiming e period offset).clock.time = s.clock.time := rfl
  have hnow' : (s.configurePeriodicTiming e period offset).clock.time < 2 ^ 63 := hnow
  simp only [setPeriodicTiming, Events.dequeueQueued, h, Bool.false_eq_true, if_false, ok_bind,
    Events.startAt, setEvent_clock, hstart]
  rw [startAt_eq fuel (near_of_lt (lt_of_le_of_lt hdue hnow) hnow'), hqueued, htime,
    if_neg (not_lt_of_ge hdue)]
  simp only [Bool.false_eq_true, if_false, bind_assoc]
  rfl

/-- A second start links the unmarked event to itself, and `stop` of another event does not return. -/
theorem second_start_loops : ∃ s₁ s₂ : Events Nat Unit Unit,
    Run Step (init 0 fun _ => 0) [.setPeriodicTiming 0 0 0] s₁ ∧
    Chain s₁.clock.next s₁.clock.queueHead [0] ∧ s₁.clock.queued 0 = false ∧
    Run Step (init 0 fun _ => 0) [.setPeriodicTiming 0 0 0, .setPeriodicTiming 0 0 0] s₂ ∧
    (¬ ∃ q, Chain s₂.clock.next s₂.clock.queueHead q) ∧
    ∀ fuel, s₂.perform fuel (.stop 1) = .error .outOfFuel := by
  let configured : Events Nat Unit Unit → Events Nat Unit Unit := fun s =>
    let s := s.configurePeriodicTiming 0 0 0
    s.setEvent 0 { s.event 0 with periodicSchedule := none }
  let a₁ := configured (init 0 fun _ => 0)
  let clock₁ := setHead { a₁.clock.setNextActivation 0 0 with queueTail := some 0 } 0
  let s₁ := { a₁ with clock := clock₁ }.emit (.wake ⟨true, none⟩)
  let a₂ := configured s₁
  let clock₂ := (a₂.clock.setNextActivation 0 0).setHead 0
  let s₂ := { a₂ with clock := clock₂ }.emit (.wake ⟨true, none⟩)
  have h₁ : Step (init 0 fun _ => 0) (.setPeriodicTiming 0 0 0) s₁ := by
    refine returns_of_add 1 fun fuel => ?_
    rw [Events.perform, setPeriodicTiming_due _ rfl (by decide) (by decide)]
    rfl
  have h₂ : Step s₁ (.setPeriodicTiming 0 0 0) s₂ := by
    refine returns_of_add 1 fun fuel => ?_
    rw [Events.perform, setPeriodicTiming_due _ rfl (by decide) (by decide)]
    rfl
  have hself : s₂.clock.next 0 = some 0 := by rfl
  refine ⟨s₁, s₂, Run.start.next h₁, ⟨rfl, rfl⟩, rfl, (Run.start.next h₁).next h₂, ?_, ?_⟩
  · rintro ⟨q, hq⟩
    exact not_chain_of_self hself q hq
  · intro fuel
    have hloop : searchEvent _ 1 fuel s₂.clock.queueHead none = .error .outOfFuel :=
      searchEvent_self (s := { s₂.clock with nonePendingHead := none }) hself (by decide) fuel none
    have hdequeue : Clock.dequeue fuel s₂.clock 1 = .error .outOfFuel := by
      unfold Clock.dequeue
      rw [show (if s₂.clock.nonePendingHead = some 1 then s₂.clock.next 1
        else s₂.clock.nonePendingHead) = none from rfl]
      simp only [hloop, error_bind]
    simp only [Events.perform, Events.stop, Events.dequeue, hdequeue, error_bind]

end Events

end TaskingFramework
