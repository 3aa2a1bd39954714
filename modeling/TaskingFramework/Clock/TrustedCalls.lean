import TaskingFramework.Clock.NextStart
import TaskingFramework.Clock.TimerStart

/-!
# Calls of a clock with a trusted cache

What one call of the clock does to the ledger, as long as the search for the next start time can
begin at the cached event.
-/

set_option linter.unusedSectionVars false

namespace TaskingFramework

open Foundation

/-- The event that a call starts. -/
def ClockCall.started {ε : Type} : ClockCall ε → Option ε
  | .startAt event _ | .startIn event _ => some event
  | _ => none

namespace Booked

open Clock

variable {ε : Type} [DecidableEq ε] {m m' : Booked ε} {q : List ε} {c : ClockCall ε}
  {a : ClockAnswer ε} {e : ε} {t : Nat} {wake : Wake}

/-- How far a call moves the time. -/
def span : ClockCall ε → Nat
  | .advance span => span
  | _ => 0

theorem span_of_started (hc : c.started = some e) : span c = 0 := by
  cases c with
  | advance => simp [ClockCall.started] at hc
  | _ => rfl

/-- A call that does not mislead keeps the queue and the cache right. -/
theorem Reflects.step_trusted (h : m.Reflects q) (htr : m.clock.Trusted q) (hm : ¬ m.Misleads c)
    (hstep : m.Step (c, a) m') :
    (∃ q', m'.Reflects q' ∧ m'.clock.Trusted q') ∧ m'.ledger = m.ledger.record m.clock.time c a ∧
      m'.clock.time = m.clock.time + span c := by
  obtain ⟨b, s', q', hret, hreflects, htime⟩ := exists_call h.2 (Admissible.readable h.1 hstep.1)
  obtain ⟨rfl, rfl⟩ := Calls.unique hstep (step_of_call hstep.1 hret)
  have hspan : s'.time = m.clock.time + span c := by
    rw [htime]
    cases c with
    | _ => rfl
  have hnow : s'.time < 2 ^ 63 := by
    rw [hspan]
    cases c with
    | advance => exact hstep.1
    | _ => exact h.1
  obtain ⟨s₁, b, q₁, hret₁, hchain, htrusted⟩ := call_trusted h htr hstep.1 hm
  obtain ⟨_, heq⟩ := Calls.unique hstep (step_of_call hstep.1 hret₁)
  obtain rfl : s' = s₁ := congrArg Booked.clock heq
  refine ⟨⟨q', ⟨hnow, hreflects⟩, ?_⟩, rfl, hspan⟩
  exact Chain.unique hchain hreflects.chain ▸ htrusted

theorem Reflects.started (h : m.Reflects q) (hc : c.started = some e)
    (hstep : m.Step (c, .wake wake) m') :
    ∃ t, (∀ b, m.ledger.record m.clock.time c b = m.ledger ++ [(e, t)]) ∧ e ∉ m.ledger.events ∧
      (wake.signal = true ↔ t ≤ m.clock.time) ∧
      ((∃ delay, wake.startTimer = some delay) ↔ m.clock.time < t ∧ m.FirstUpTo t) := by
  have hfuture : ∀ t b, m.Step (.startAt e t, .wake wake) b →
      (wake.signal = true ↔ t ≤ m.clock.time) ∧
      ((∃ delay, wake.startTimer = some delay) ↔ m.clock.time < t ∧ m.FirstUpTo t) := by
    intro t b hstep
    obtain ⟨_, hwake, hsignal, htimer⟩ := h.wake hstep.1 hstep
    obtain rfl := ClockAnswer.wake.inj hwake
    refine ⟨hsignal, ?_⟩
    simp only [htimer]
    exact ⟨fun ⟨_, hlt, hfirst, _⟩ => ⟨hlt, hfirst⟩, fun ⟨hlt, hfirst⟩ => ⟨_, hlt, hfirst, rfl⟩⟩
  cases c with
  | startAt f t =>
      obtain rfl : f = e := Option.some.inj hc
      exact ⟨t, fun _ => rfl, hstep.1.1, hfuture t m' hstep⟩
  | startIn f t =>
      obtain rfl : f = e := Option.some.inj hc
      refine ⟨m.clock.time + t, fun _ => rfl, hstep.1.1, ?_⟩
      by_cases ht : t = 0
      · subst ht
        obtain ⟨s', hret, _⟩ := startIn_zero h.2.toRepresents (h.2.notMem hstep.1.1)
        have hstep' : m.Step (.startIn f 0, .wake ⟨true, none⟩) _ :=
          step_of_call hstep.1 (hret.bind (returns_ok _))
        obtain rfl := ClockAnswer.wake.inj (Calls.unique hstep hstep').1
        refine ⟨by simp, iff_of_false (by simp) ?_⟩
        intro hboth
        exact absurd hboth.1 (by omega)
      · -- both starts do the same
        have hsum : m.clock.time + t < 2 ^ 64 := Nat.lt_trans hstep.1.2 (by decide)
        obtain ⟨b, s', _, hret, _⟩ :=
          exists_call (c := .startAt f (m.clock.time + t)) h.2 (Admissible.readable h.1 hstep.1)
        have hstep' := step_of_call (m := m) (c := .startAt f (m.clock.time + t)) hstep.1 hret
        have hsame : m.Step (.startIn f t, b) _ := step_of_call hstep.1 (hret.congr fun fuel => by
          rw [Clock.call, Clock.call, startIn_eq fuel ht hsum])
        obtain rfl := (Calls.unique hstep hsame).1
        exact hfuture _ _ hstep'
  | dequeue | dequeueAll | readFirstPending | getNextStartTime | advance =>
      simp [ClockCall.started] at hc

/-- Pending is the clock whenever an entry of the ledger is due. -/
theorem Reflects.isPending_iff (h : m.Reflects q) :
    m.clock.isPending = true ↔ ∃ p ∈ m.ledger, p.2 ≤ m.clock.time := by
  have hhead : m.clock.queueHead = q.head? := Chain.head h.2.chain
  have hentry : (∃ f ∈ q, m.clock.nextActivation_ms f ≤ m.clock.time) ↔
      ∃ p ∈ m.ledger, p.2 ≤ m.clock.time := by
    constructor
    · rintro ⟨f, hf, hle⟩
      obtain ⟨p, hp, rfl⟩ := List.mem_map.mp (h.2.visits.subset hf)
      exact ⟨p, hp, h.2.times p hp ▸ hle⟩
    · rintro ⟨p, hp, hle⟩
      refine ⟨p.1, h.2.visits.symm.subset (List.mem_map_of_mem hp), ?_⟩
      rw [h.2.times p hp]
      exact hle
  rw [← hentry, Clock.isPending, hhead]
  cases q with
  | nil => simp
  | cons a q =>
      simp only [List.head?_cons, decide_eq_true_eq]
      constructor
      · intro ha
        exact ⟨a, List.mem_cons_self, ha⟩
      · rintro ⟨f, hf, hle⟩
        rcases List.mem_cons.mp hf with rfl | hf
        · exact hle
        · exact (List.pairwise_cons.mp h.ordered.dueFirst).1 f hf hle

/-- The next start time is the first future time of the ledger. -/
theorem Reflects.nextStartTime (h : m.Reflects q) (htr : m.clock.Trusted q) {n : Nat}
    (hstep : m.Step (.getNextStartTime, .time n) m') :
    (n = 0 ∨ m.clock.time < n) ∧ ∀ p ∈ m.ledger, m.clock.time < p.2 → n ≠ 0 ∧ n ≤ p.2 := by
  obtain ⟨s', time, hret, _, _, hnext⟩ := htr.getNextStartTime h.2
  have hstep' := step_of_call (m := m) (c := .getNextStartTime) trivial (hret.bind (returns_ok _))
  obtain rfl := ClockAnswer.time.inj (Calls.unique hstep hstep').1
  have hmem : ∀ p ∈ m.ledger, p.1 ∈ q ∧ m.clock.nextActivation_ms p.1 = p.2 :=
    fun p hp => ⟨h.2.visits.symm.subset (List.mem_map_of_mem hp), h.2.times p hp⟩
  rcases hnext with ⟨rfl, hdue⟩ | ⟨⟨hlt, _⟩, hleast⟩
  · refine ⟨Or.inl rfl, ?_⟩
    intro p hp hlater
    obtain ⟨hq, htime⟩ := hmem p hp
    exact absurd (htime ▸ hdue p.1 hq) (Nat.not_le.mpr hlater)
  · refine ⟨Or.inr hlt, ?_⟩
    intro p hp hlater
    obtain ⟨hq, htime⟩ := hmem p hp
    exact ⟨by omega, hleast ⟨hlater, p.1, hq, htime⟩⟩

end Booked

end TaskingFramework
