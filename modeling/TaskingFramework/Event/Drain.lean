import TaskingFramework.Event.HandleEvents

/-!
# Draining the queue

What is kept by the handling of one due event is kept by `handleEvents`, which returns as soon as no
event of the queue is due. A handled event leaves the queue, or goes back for a later time.
-/

set_option linter.unusedSectionVars false

namespace TaskingFramework

open Foundation

namespace Clock

variable {ε : Type} [DecidableEq ε] {s s' : Clock ε} {q r : List ε} {e : ε} {t : Nat}

/-- The event joins the queue, for the current time or before in front of all others. -/
theorem Represents.startAt (h : s.Represents q) (he : e ∉ q) (ht : t < 2 ^ 63)
    (hnow : s.time < 2 ^ 63) :
    ∃ s' wake r, Returns (fun fuel => Clock.startAt fuel s e t) (s', wake) ∧ s'.Represents r ∧
      r.Perm (e :: q) ∧ s'.time = s.time ∧
      s'.nextActivation_ms = Function.update s.nextActivation_ms e t := by
  by_cases hdue : t ≤ s.time
  · obtain ⟨s', hret, hrep, htime, hact, _⟩ := startAt_due h he (by omega) hdue
    exact ⟨s', _, e :: q, hret, hrep, List.Perm.refl _, htime, hact⟩
  · have hlater : s.time < t := lt_of_not_ge hdue
    obtain ⟨s', hret, hrep, htime, hact, _⟩ := startAt_future h he (by omega) hlater
    have hsplit := (h.setNextActivation he t).ordered.split (le_of_lt hlater)
    exact ⟨s', _, _, hret, hrep, insertAt_perm hsplit, htime, hact⟩

theorem Represents.startAt_queued {wake : Wake} (h : s.Represents q) (he : e ∉ q) (ht : t < 2 ^ 63)
    (hnow : s.time < t) (hret : Returns (fun fuel => Clock.startAt fuel s e t) (s', wake)) :
    s'.queued e = true := by
  obtain ⟨u, hu, _, _, _, hqueued, _⟩ := startAt_future h he (by omega) hnow
  obtain ⟨rfl, _⟩ := Prod.mk.inj (hret.unique hu)
  rw [hqueued, Function.update_self]

theorem Represents.not_due (h : s.Represents q)
    (hhead : ∀ e ∈ q.head?, s.time < s.nextActivation_ms e) :
    ∀ e ∈ q, s.time < s.nextActivation_ms e := by
  cases q with
  | nil => simp
  | cons a q =>
      have ha : s.time < s.nextActivation_ms a := hhead a rfl
      have hordered := (dueOrdered_cons.mp h.ordered).1
      intro e he
      rcases List.mem_cons.mp he with rfl | he
      · exact ha
      · exact lt_of_lt_of_le ha (hordered e he ha)

theorem lateness_leave (hdue : s.nextActivation_ms e ≤ s.time) :
    s.lateness q < s.lateness (e :: q) := by
  simp only [lateness, List.map_cons, List.sum_cons]
  omega

theorem lateness_later (he : e ∉ q) (hperm : r.Perm (e :: q)) (htime : s'.time = s.time)
    (hact : s'.nextActivation_ms = Function.update s.nextActivation_ms e t)
    (hdue : s.nextActivation_ms e ≤ s.time) (hlater : s.nextActivation_ms e < t) :
    s'.lateness r < s.lateness (e :: q) := by
  have hself : s'.nextActivation_ms e = t := by
    rw [hact, Function.update_self]
  have hsame : s'.lateness q = s.lateness q := by
    apply lateness_congr htime
    intro f hf
    rw [hact]
    exact setNextActivation_of_mem he hf
  have hnew : s'.lateness r = s.time + 1 - t + s.lateness q := by
    rw [lateness_perm hperm, ← hsame]
    simp [lateness, hself, htime]
  have hold : s.lateness (e :: q) = s.time + 1 - s.nextActivation_ms e + s.lateness q := by
    simp [lateness]
  rw [hnew, hold]
  omega

end Clock

namespace Events

open Clock

variable {ε π θ : Type} [DecidableEq ε] [DecidableEq π] [DecidableEq θ]
  {s : Events ε π θ} {q : List ε} {e x : ε} {I : Events ε π θ → List ε → Prop}

/-- How often the event was handled. -/
def handlings (s : Events ε π θ) (e : ε) : Nat := s.trace.countP fun entry => entry.2 = .handle e

theorem handlings_emit (effect : Effect ε θ) :
    (s.emit effect).handlings e = s.handlings e + if effect = .handle e then 1 else 0 := by
  simp [handlings, emit, List.countP_append, List.countP_cons]

theorem handlings_handle :
    (s.emit (.handle x)).handlings e = s.handlings e + if x = e then 1 else 0 := by
  rw [handlings_emit]
  congr 1
  simp only [Effect.handle.injEq]

/-- The handling of a periodic event: it goes back into the queue, one period later. -/
theorem handle_periodical (hrep : s.clock.Represents q) (he : e ∉ q)
    (hunscheduled : (s.event e).periodicSchedule = none)
    (hperiodical : (s.event e).periodical = true) (hnow : s.clock.time < 2 ^ 63)
    (hnext : s.clock.nextActivation_ms e + (s.event e).period_ms < 2 ^ 63) :
    ∃ s' r, Returns (fun fuel => s.handle fuel e) s' ∧ s'.event = s.event ∧
      s'.clock.Represents r ∧ r.Perm (e :: q) ∧ s'.clock.time = s.clock.time ∧
      s'.clock.nextActivation_ms = Function.update s.clock.nextActivation_ms e
        (s.clock.nextActivation_ms e + (s.event e).period_ms) ∧
      ∀ f, s'.handlings f = s.handlings f + if e = f then 1 else 0 := by
  obtain ⟨clock, wake, r, hret, hclock, hperm, htime, hact⟩ := hrep.startAt he hnext hnow
  have hmod : (s.clock.nextActivation_ms e + (s.event e).period_ms) % 2 ^ 64 =
      s.clock.nextActivation_ms e + (s.event e).period_ms := Nat.mod_eq_of_lt (by omega)
  let s₁ := s.emit (.handle e)
  let s₂ := { s₁ with clock := clock }.emit (.wake wake)
  have hrestart : Returns (fun fuel => s₁.restart fuel e) s₂ := by
    simp only [Events.restart, s₁, emit_event, emit_clock, hunscheduled, hmod]
    exact hret.bind (returns_ok _)
  have hfire : s₂.shallFire e = true := by
    rw [shallFire, show s₂.event = s.event from rfl, hunscheduled]
    rfl
  refine ⟨s₂.emit (.push e), r, ?_, rfl, hclock, hperm, htime, hact, fun f => ?_⟩
  · simp only [handle, emit_event, hperiodical, if_true]
    refine hrestart.bind ?_
    simp only [hfire, if_true]
    exact returns_ok _
  · have hwake : s₂.handlings f = s₁.handlings f := handlings_emit _
    rw [handlings_emit, hwake, handlings_handle]
    rfl

theorem handle_once (hunscheduled : (s.event e).periodicSchedule = none)
    (hperiodical : (s.event e).periodical = false) :
    ∃ s', Returns (fun fuel => s.handle fuel e) s' ∧ s'.event = s.event ∧ s'.clock = s.clock ∧
      ∀ f, s'.handlings f = s.handlings f + if e = f then 1 else 0 := by
  have hfire : (s.emit (.handle e)).shallFire e = true := by
    rw [shallFire, emit_event, hunscheduled]
    rfl
  refine ⟨(s.emit (.handle e)).emit (.push e), ?_, rfl, rfl, fun f => ?_⟩
  · simp only [handle, emit_event, hperiodical, Bool.false_eq_true, if_false, pure_eq_ok, ok_bind,
      hfire, if_true]
    exact returns_ok _
  · rw [handlings_emit, handlings_handle]
    rfl

theorem trigger_delayed (delay : Nat) (hrep : s.clock.Represents q) (he : e ∉ q)
    (hconfigured : (s.event e).configured = false) (hdelay : 0 < delay)
    (hlt : s.clock.time + delay < 2 ^ 63) :
    ∃ s' r, Returns (fun fuel => s.trigger fuel e delay) s' ∧ s'.event = s.event ∧
      s'.clock.Represents r ∧ r.Perm (e :: q) ∧ s'.clock.time = s.clock.time ∧
      s'.clock.nextActivation_ms =
        Function.update s.clock.nextActivation_ms e (s.clock.time + delay) ∧
      ∀ f, s'.handlings f = s.handlings f := by
  have hqueued := (hrep.outside e he).1
  have hpos : delay ≠ 0 := by omega
  obtain ⟨clock, wake, r, hret, hclock, hperm, htime, hact⟩ := hrep.startAt he hlt (by omega)
  let s' := { s with clock := clock }.emit (.wake wake)
  refine ⟨s', r, ?_, rfl, hclock, hperm, htime, hact, fun f => handlings_emit _⟩
  simp only [Events.trigger, hconfigured, Events.dequeueQueued, hqueued, Bool.false_eq_true, if_false,
    ok_bind, if_neg hpos, Events.startIn, startIn_eq _ hpos (Nat.lt_trans hlt (by decide))]
  exact hret.bind (returns_ok _)

/-- The handling of the event `e` keeps `I` and the time. The clock is the one behind its removal. -/
def Handles (I : Events ε π θ → List ε → Prop) (s : Events ε π θ) (e : ε) (q : List ε) : Prop :=
  ∀ clock : Clock ε, clock.Represents q → clock.time = s.clock.time →
    clock.nextActivation_ms = s.clock.nextActivation_ms →
    ∃ s' r, Returns (fun fuel => ({ s with clock := clock } : Events ε π θ).handle fuel e) s' ∧
      I s' r ∧ s'.clock.time = s.clock.time ∧ s'.clock.lateness r < s.clock.lateness (e :: q)

/-- The same with a bound on the work that is left, which the handling lowers. -/
def Lowers (I : Nat → Events ε π θ → List ε → Prop) (work : Nat) (s : Events ε π θ) (e : ε)
    (q : List ε) : Prop :=
  ∀ clock : Clock ε, clock.Represents q → clock.time = s.clock.time →
    clock.nextActivation_ms = s.clock.nextActivation_ms →
    ∃ s' r, Returns (fun fuel => ({ s with clock := clock } : Events ε π θ).handle fuel e) s' ∧
      s'.clock.time = s.clock.time ∧ ∃ left < work, I left s' r

theorem handleEvents_lowers {I : Nat → Events ε π θ → List ε → Prop} {work : Nat}
    (hrep : ∀ work s q, I work s q → s.clock.Represents q)
    (hhandle : ∀ work s e q, I work s (e :: q) → s.clock.nextActivation_ms e ≤ s.clock.time →
      Lowers I work s e q) (h : I work s q) :
    ∃ s' r left, Returns (fun fuel => s.handleEvents fuel) s' ∧ I left s' r ∧
      s'.clock.time = s.clock.time ∧ ∀ e ∈ r, s'.clock.time < s'.clock.nextActivation_ms e := by
  induction work using Nat.strong_induction_on generalizing s q with
  | _ work ih =>
      by_cases hq : ∀ e ∈ q.head?, s.clock.time < s.clock.nextActivation_ms e
      · have hret := readFirstPending_none (hrep work s q h) hq
        refine ⟨s, q, work, ?_, h, rfl, (hrep work s q h).not_due hq⟩
        exact (hret.bind (returns_ok s)).step fun fuel => rfl
      · push Not at hq
        obtain ⟨e, hhead, hdue⟩ := hq
        obtain ⟨q, rfl⟩ := List.head?_eq_some_iff.mp hhead
        obtain ⟨clock, hret, hclock, htime, hact, _⟩ := readFirstPending_due (hrep work s _ h) hdue
        obtain ⟨s₁, r, hhandled, htime₁, left, hless, hI⟩ :=
          hhandle work s e q h hdue clock hclock htime hact
        obtain ⟨s', r', left', hloop, hI', htime', hnone⟩ := ih left hless hI
        refine ⟨s', r', left', ?_, hI', htime'.trans htime₁, hnone⟩
        exact (hret.bind (hhandled.bind hloop)).step fun fuel => rfl

theorem handleEvents_drains (hrep : ∀ s q, I s q → s.clock.Represents q)
    (hhandle : ∀ s e q, I s (e :: q) → s.clock.nextActivation_ms e ≤ s.clock.time → Handles I s e q)
    (h : I s q) :
    ∃ s' r, Returns (fun fuel => s.handleEvents fuel) s' ∧ I s' r ∧ s'.clock.time = s.clock.time ∧
      ∀ e ∈ r, s'.clock.time < s'.clock.nextActivation_ms e := by
  let late : Nat → Events ε π θ → List ε → Prop := fun work s q => I s q ∧ s.clock.lateness q = work
  have hlowers : ∀ work s e q, late work s (e :: q) → s.clock.nextActivation_ms e ≤ s.clock.time →
      Lowers late work s e q := by
    intro work s e q hlate hdue clock hclock htime hact
    obtain ⟨hI, rfl⟩ := hlate
    obtain ⟨s', r, hret, hI', htime', hless⟩ := hhandle s e q hI hdue clock hclock htime hact
    exact ⟨s', r, hret, htime', _, hless, hI', rfl⟩
  obtain ⟨s', r, _, hret, hI, htime, hnone⟩ :=
    handleEvents_lowers (fun work s q hlate => hrep s q hlate.1) hlowers ⟨h, rfl⟩
  exact ⟨s', r, hret, hI.1, htime, hnone⟩

end Events

end TaskingFramework
