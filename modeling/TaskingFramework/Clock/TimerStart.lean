import TaskingFramework.Clock.QueueOrder

/-!
# The start of the timer

A start in the future starts the timer if no other event of the queue is due in between, although
`enqueue` only looks at the block of events in front of the new one. A start for the current time or
before signals the scheduler.
-/

set_option linter.unusedSectionVars false

namespace TaskingFramework.Booked

open Foundation Clock

variable {ε : Type} [DecidableEq ε] {m m' : Booked ε} {q : List ε} {e : ε} {t t₀ : Nat}
  {a : ClockAnswer ε}

/-- No event of the ledger is activated behind the current time and up to `t`. -/
def FirstUpTo (m : Booked ε) (t : Nat) : Prop :=
  ∀ entry ∈ m.ledger, ¬ (m.clock.time < entry.2 ∧ entry.2 ≤ t)

private theorem Reflects.firstUpTo_iff (h : m.Reflects q) :
    (∀ f ∈ q, m.clock.nextActivation_ms f ≤ m.clock.time ∨ t < m.clock.nextActivation_ms f) ↔
      m.FirstUpTo t := by
  constructor
  · intro hq entry hentry hbetween
    have hmem : entry.1 ∈ q := h.2.visits.mem_iff.mpr (List.mem_map_of_mem hentry)
    have hor := hq entry.1 hmem
    rw [h.2.times entry hentry] at hor
    omega
  · intro hledger f hf
    obtain ⟨entry, hentry, rfl⟩ := List.mem_map.mp (h.2.visits.subset hf)
    have hnot := hledger entry hentry
    rw [h.2.times entry hentry]
    omega

theorem Reflects.wake (h : m.Reflects q) (hc : m.Admissible (.startAt e t))
    (hstep : m.Step (.startAt e t, a) m') :
    ∃ wake, a = .wake wake ∧ (wake.signal = true ↔ t ≤ m.clock.time) ∧
      ∀ delay, wake.startTimer = some delay ↔
        m.clock.time < t ∧ m.FirstUpTo t ∧ delay = t - m.clock.time := by
  obtain ⟨hnow, hreflects⟩ := h
  have he : e ∉ q := hreflects.notMem hc.1
  by_cases hdue : t ≤ m.clock.time
  · obtain ⟨s', hret, _⟩ := startAt_due hreflects.toRepresents he (by omega) hdue
    have hstep' : m.Step (.startAt e t, .wake ⟨true, none⟩) _ :=
      step_of_call hc (hret.bind (returns_ok _))
    refine ⟨_, (Calls.unique hstep hstep').1, iff_of_true rfl hdue, ?_⟩
    intro delay
    exact iff_of_false nofun fun hboth => absurd hdue (Nat.not_le.mpr hboth.1)
  · have hlater : m.clock.time < t := Nat.lt_of_not_le hdue
    obtain ⟨s', hret, _⟩ := startAt_future hreflects.toRepresents he (Nat.lt_add_left _ hc.2) hlater
    have hstep' : m.Step (.startAt e t, .wake _) _ := step_of_call hc (hret.bind (returns_ok _))
    refine ⟨_, (Calls.unique hstep hstep').1, iff_of_false nofun hdue, ?_⟩
    intro delay
    have hiff : (∀ f ∈ q, m.clock.nextActivation_ms f ≤ m.clock.time ∨
        t < m.clock.nextActivation_ms f) ↔ m.FirstUpTo t :=
      Reflects.firstUpTo_iff ⟨hnow, hreflects⟩
    by_cases hfirst : m.FirstUpTo t
    · rw [if_pos (hiff.mpr hfirst), Option.some.injEq]
      exact ⟨fun heq => ⟨hlater, hfirst, heq.symm⟩, fun hall => hall.2.2.symm⟩
    · rw [if_neg fun hq => hfirst (hiff.mp hq)]
      exact iff_of_false nofun fun hall => hfirst hall.2.1

/-- In every run of admissible calls, the next start of an event that is not in the queue starts the
timer exactly if it is in the future and no queued event is due in between, and signals the scheduler
exactly if it is not in the future. -/
theorem run_startsTimer (ht : t₀ < 2 ^ 63) {l : List (ClockCall ε × ClockAnswer ε)}
    (h : Run Step (opened t₀) l m) (he : e ∉ m.ledger.events) (htime : t < 2 ^ 63) :
    ∃ wake m', m.Step (.startAt e t, .wake wake) m' ∧
      (∀ a m', m.Step (.startAt e t, a) m' → a = .wake wake) ∧
      (wake.signal = true ↔ t ≤ m.clock.time) ∧
      ∀ delay, wake.startTimer = some delay ↔
        m.clock.time < t ∧ m.FirstUpTo t ∧ delay = t - m.clock.time := by
  obtain ⟨q, hq⟩ := run_reflects ht h
  have hc : m.Admissible (.startAt e t) := ⟨he, htime⟩
  obtain ⟨a, m', _, hstep, _⟩ := exists_step hq hc
  obtain ⟨wake, rfl, hsignal, htimer⟩ := hq.wake hc hstep
  exact ⟨wake, m', hstep, fun b v hv => (Calls.unique hv hstep).1, hsignal, htimer⟩

/-- Event 1 is due before the queued event 2, and shortens the wait of the timer. -/
theorem run_startsTimer_earlier : ∃ (m m' : Booked Nat) (wake : Wake),
    Run Step (opened 0) [(.startAt 2 2, .wake ⟨false, some 2⟩)] m ∧
      m.Step (.startAt 1 1, .wake wake) m' ∧ wake.startTimer = some 1 := by
  let s₁ := reached (empty 0) (enqueue 1 0 ((empty 0).setNextActivation 2 2) 2)
  have h₁ : (opened 0 : Booked Nat).Step (.startAt 2 2, .wake ⟨false, some 2⟩) ⟨s₁, [(2, 2)]⟩ :=
    step_of_call (by decide) (returns_of_add 1 fun fuel => by
      rw [call_startAt _ rfl (by decide) (by decide)]
      rfl)
  have hrun := Run.start.next h₁
  obtain ⟨wake, m', hstep, _, _, htimer⟩ :=
    run_startsTimer (e := 1) (t := 1) (by decide) hrun (by decide) (by decide)
  refine ⟨_, m', wake, hrun, hstep, (htimer 1).mpr ⟨by decide, ?_, rfl⟩⟩
  intro entry hentry
  rw [List.mem_singleton.mp hentry]
  decide

end TaskingFramework.Booked
