import TaskingFramework.Event.WellQueued

/-!
# Handling the pending events

Every round of `handleEvents` removes a due event and may start it again one period later. The sum of
the delays of the due events decreases, so that the loop ends.
-/

set_option linter.unusedSectionVars false

namespace TaskingFramework

open Foundation

theorem lt_nextPeriod {start period now : Nat} (hp : 0 < period) (h : start ≤ now) :
    now < nextPeriod start period now := by
  have hdiv := Nat.lt_div_mul_add hp (a := now - start)
  unfold nextPeriod
  rw [Nat.add_mul, Nat.one_mul]
  omega

private theorem nextPeriod_step {start period now : Nat} (hp : 0 < period) (h : start + period ≤ now) :
    nextPeriod (start + period) period now = nextPeriod start period now := by
  have hdiv := Nat.div_eq_sub_div hp (a := now - start) (by omega)
  have hsub : now - start - period = now - (start + period) := by omega
  rw [hsub] at hdiv
  unfold nextPeriod
  rw [hdiv, Nat.succ_mul ((now - (start + period)) / period + 1)]
  omega

private theorem step_le_nextPeriod {start period now : Nat} :
    start + period ≤ nextPeriod start period now := by
  unfold nextPeriod
  rw [Nat.add_mul, Nat.one_mul]
  omega

namespace Clock

variable {ε : Type} [DecidableEq ε] {s : Clock ε} {q r : List ε} {e : ε} {t : Nat}

/-- The sum of the delays of the due events, each counted up to the next time. -/
def lateness (s : Clock ε) (q : List ε) : Nat :=
  (q.map fun e => s.time + 1 - s.nextActivation_ms e).sum

theorem lateness_perm (h : q.Perm r) : s.lateness q = s.lateness r := (h.map _).sum_nat

theorem lateness_congr {s' : Clock ε} (htime : s'.time = s.time)
    (hact : ∀ e ∈ q, s'.nextActivation_ms e = s.nextActivation_ms e) :
    s'.lateness q = s.lateness q := by
  unfold lateness
  rw [htime]
  congr 1
  apply List.map_congr_left
  intro e he
  rw [hact e he]

end Clock

namespace Events

open Clock

variable {ε π θ : Type} [DecidableEq ε] [DecidableEq π] [DecidableEq θ]
  {s s' : Events ε π θ} {q r : List ε} {e : ε} {t : Nat}

@[simp] theorem emit_clock (effect : Effect ε θ) : (s.emit effect).clock = s.clock := rfl

@[simp] theorem emit_event (effect : Effect ε θ) : (s.emit effect).event = s.event := rfl

@[simp] theorem setEvent_clock (event : EventImpl π) : (s.setEvent e event).clock = s.clock := rfl

/-- No event plays a schedule, and periodic events have a period. -/
structure Plain (s : Events ε π θ) : Prop where
  unscheduled : ∀ e, (s.event e).periodicSchedule = none
  period : ∀ e, (s.event e).periodical = true → 0 < (s.event e).period_ms

/-- The restarts of the due periodic events of the queue keep below the sign bit. -/
def Bounded (s : Events ε π θ) (q : List ε) : Prop :=
  ∀ e ∈ q, (s.event e).periodical = true → s.clock.nextActivation_ms e ≤ s.clock.time →
    nextPeriod (s.clock.nextActivation_ms e) (s.event e).period_ms s.clock.time < 2 ^ 63

theorem Plain.congr (h : s.Plain) (hevent : s'.event = s.event) : s'.Plain := by
  constructor
  · intro e
    rw [hevent]
    exact h.unscheduled e
  · intro e
    rw [hevent]
    exact h.period e

private theorem restart_returns (hplain : s.Plain) (hmarked : s.clock.Marked q) (he : e ∉ q)
    (hperiodical : (s.event e).periodical = true)
    (hdue : s.clock.nextActivation_ms e ≤ s.clock.time) (hnow : s.clock.time < 2 ^ 63)
    (hbounded : s.Bounded (e :: q)) :
    ∃ s' q', Returns (fun fuel => s.restart fuel e) s' ∧ s'.event = s.event ∧
      s'.clock.time = s.clock.time ∧ s'.clock.Pending q' ∧ s'.Bounded q' ∧
      s'.clock.lateness q' < s.clock.lateness (e :: q) := by
  have hp := hplain.period e hperiodical
  have hnext := hbounded e List.mem_cons_self hperiodical hdue
  generalize hstart : s.clock.nextActivation_ms e = start at hdue hnext
  generalize hperiod : (s.event e).period_ms = period at hp hnext
  have hle : start + period < 2 ^ 63 := lt_of_le_of_lt step_le_nextPeriod hnext
  have hmod : (start + period) % 2 ^ 64 = start + period := Nat.mod_eq_of_lt (by omega)
  have hold : s.clock.lateness (e :: q) = s.clock.time + 1 - start + s.clock.lateness q := by
    simp [lateness, hstart]
  -- what is said of a clock in which the event has its new time
  have hall : ∀ (clock : Clock ε) (effect : Effect ε θ) (q' : List ε), q'.Perm (e :: q) →
      clock.time = s.clock.time → clock.nextActivation_ms =
        Function.update s.clock.nextActivation_ms e (start + period) →
      ({ s with clock := clock }.emit effect).Bounded q' ∧
        clock.lateness q' < s.clock.lateness (e :: q) := by
    intro clock effect q' hperm htime hact
    have hself : clock.nextActivation_ms e = start + period := by
      rw [hact, Function.update_self]
    have hsame : ∀ f ∈ q, clock.nextActivation_ms f = s.clock.nextActivation_ms f := by
      intro f hf
      rw [hact]
      exact setNextActivation_of_mem he hf
    constructor
    · intro f hf hfper hfdue
      have hfper' : (s.event f).periodical = true := hfper
      show nextPeriod (clock.nextActivation_ms f) (s.event f).period_ms clock.time < 2 ^ 63
      have hfdue' : clock.nextActivation_ms f ≤ clock.time := hfdue
      rw [htime] at hfdue' ⊢
      rcases List.mem_cons.mp (hperm.subset hf) with rfl | hfq
      · rw [hself] at hfdue' ⊢
        rw [hperiod, nextPeriod_step hp hfdue']
        exact hnext
      · rw [hsame f hfq] at hfdue' ⊢
        exact hbounded f (List.mem_cons_of_mem e hfq) hfper' hfdue'
    · have hnew : clock.lateness q' =
          s.clock.time + 1 - (start + period) + s.clock.lateness q := by
        rw [lateness_perm hperm, ← lateness_congr (q := q) htime hsame]
        simp [lateness, hself, htime]
      rw [hnew, hold]
      omega
  simp only [restart, hplain.unscheduled, hstart, hperiod, hmod]
  by_cases hlate : start + period ≤ s.clock.time
  · obtain ⟨clock, hret, hrep, htime, hact, hqueued, _⟩ :=
      startAt_due hmarked.toRepresents he (by omega) hlate
    obtain ⟨hb, hless⟩ := hall clock (.wake ⟨true, none⟩) (e :: q) (List.Perm.refl _) htime hact
    refine ⟨_, e :: q, hret.bind (returns_ok _), rfl, htime, ⟨hrep, ?_, ?_⟩, hb, hless⟩
    · intro f hf
      have hfe : e = f := by simpa using hf
      subst f
      right
      show clock.nextActivation_ms e ≤ clock.time
      rw [hact, Function.update_self, htime]
      exact hlate
    · intro f hf
      show clock.queued f = true
      rw [hqueued]
      exact hmarked.marked f hf
  · obtain ⟨clock, wake, q', hret, hmarked', htime, hact, hperm⟩ :=
      hmarked.startAt he hle (lt_of_not_ge hlate)
    obtain ⟨hb, hless⟩ := hall clock (.wake wake) q' hperm htime hact
    exact ⟨_, q', hret.bind (returns_ok _), rfl, htime, hmarked'.pending, hb, hless⟩

private theorem handle_returns (hplain : s.Plain) (hmarked : s.clock.Marked q) (he : e ∉ q)
    (hdue : s.clock.nextActivation_ms e ≤ s.clock.time) (hnow : s.clock.time < 2 ^ 63)
    (hbounded : s.Bounded (e :: q)) :
    ∃ s' q', Returns (fun fuel => s.handle fuel e) s' ∧ s'.event = s.event ∧
      s'.clock.time = s.clock.time ∧ s'.clock.Pending q' ∧ s'.Bounded q' ∧
      s'.clock.lateness q' < s.clock.lateness (e :: q) := by
  have hplain' : (s.emit (.handle e)).Plain := hplain.congr rfl
  cases hper : (s.event e).periodical with
  | true =>
      obtain ⟨s', q', hret, hevent, htime, hpending, hb, hless⟩ :=
        restart_returns (s := s.emit (.handle e)) hplain' hmarked he hper hdue hnow hbounded
      have hfire : s'.shallFire e = true := by
        rw [shallFire, hevent, emit_event, hplain.unscheduled e]
        rfl
      refine ⟨s'.emit (.push e), q', ?_, hevent, htime, hpending, hb, hless⟩
      simp only [handle, emit_event, hper, if_true]
      refine hret.bind ?_
      simp only [hfire, if_true]
      exact returns_ok _
  | false =>
      have hfire : (s.emit (.handle e)).shallFire e = true := by
        rw [shallFire, emit_event, hplain.unscheduled e]
        rfl
      refine ⟨(s.emit (.handle e)).emit (.push e), q, ?_, rfl, rfl, hmarked.pending, ?_, ?_⟩
      · simp only [handle, emit_event, hper, Bool.false_eq_true, if_false, pure_eq_ok, ok_bind,
          hfire, if_true]
        exact returns_ok _
      · exact fun f hf => hbounded f (List.mem_cons_of_mem e hf)
      · simp only [emit_clock, lateness, List.map_cons, List.sum_cons]
        omega

/-- The loop ends, and every event that is left in the queue is marked. -/
theorem handleEvents_returns (hplain : s.Plain) (hpending : s.clock.Pending q)
    (hnow : s.clock.time < 2 ^ 63) (hbounded : s.Bounded q) :
    ∃ s' q', Returns (fun fuel => s.handleEvents fuel) s' ∧ s'.event = s.event ∧
      s'.clock.time = s.clock.time ∧ s'.clock.Marked q' := by
  generalize hn : s.clock.lateness q = n
  induction n using Nat.strong_induction_on generalizing s q with
  | _ n ih =>
      by_cases hq : ∀ e ∈ q.head?, s.clock.time < s.clock.nextActivation_ms e
      · have hret := readFirstPending_none hpending.toRepresents hq
        refine ⟨s, q, ?_, rfl, rfl, hpending.marked hq⟩
        exact (hret.bind (returns_ok s)).step fun fuel => rfl
      · push Not at hq
        obtain ⟨e, hhead, hdue⟩ := hq
        obtain ⟨r, rfl⟩ := List.head?_eq_some_iff.mp hhead
        obtain ⟨clock, hret, hmarked, htime, hact⟩ := hpending.read hdue
        have her : e ∉ r := (List.nodup_cons.mp hpending.nodup).1
        have hb : ({ s with clock := clock } : Events ε π θ).Bounded (e :: r) := by
          intro f hf hfper hfdue
          have h := hbounded f hf hfper
          rw [← htime, ← hact] at h
          exact h hfdue
        have hlate : clock.lateness (e :: r) = n := by
          rw [lateness_congr htime fun _ _ => by rw [hact]]
          exact hn
        obtain ⟨s₁, q₁, hhandle, hevent, htime₁, hpending₁, hb₁, hless⟩ :=
          handle_returns (s := { s with clock := clock }) (hplain.congr rfl) hmarked her
            (by rw [hact, htime]; exact hdue) (by rw [htime]; exact hnow) hb
        have htime₁ : s₁.clock.time = s.clock.time := htime₁.trans htime
        obtain ⟨s', q', hloop, hevent', htime', hmarked'⟩ :=
          ih _ (lt_of_lt_of_eq hless hlate) (hplain.congr hevent) hpending₁
            (lt_of_eq_of_lt htime₁ hnow) hb₁ rfl
        refine ⟨s', q', ?_, hevent'.trans hevent, htime'.trans htime₁, hmarked'⟩
        exact (hret.bind (hhandle.bind hloop)).step fun fuel => rfl

end Events

end TaskingFramework
