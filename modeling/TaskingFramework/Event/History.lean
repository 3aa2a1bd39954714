import TaskingFramework.Clock.Steady
import TaskingFramework.Event.ScheduleStart
import TaskingFramework.Event.Stopped

/-!
# Histories of events

The operations of events in any order, with periodic timings, schedules and relative timings. As
long as no event is started that stands in the queue unmarked, the clock queue stays in order, and
an operation on one event leaves all others as they are.
-/

set_option linter.unusedSectionVars false

namespace TaskingFramework

open Foundation

namespace Schedules

variable {π θ : Type} [DecidableEq π] [DecidableEq θ]

private theorem pushFollowing_steady (s : Schedules π θ) (active : θ) :
    Steady fun fuel => pushFollowing s fuel active := by
  intro n r h
  induction n generalizing active r with
  | zero => exact absurd h (by simp [pushFollowing])
  | succ n ih =>
      simp only [pushFollowing] at h ⊢
      cases hnext : (s.trigger active).next with
      | none =>
          simp only [hnext] at h ⊢
          exact h
      | some following =>
          simp only [hnext] at h ⊢
          split at h
          · rename_i hsame
            rw [if_pos hsame]
            obtain ⟨r', hr', hret⟩ := bind_eq_ok.mp h
            exact bind_eq_ok.mpr ⟨r', ih _ _ hr', hret⟩
          · rename_i hsame
            rw [if_neg hsame]
            exact h

private theorem pushTriggers_steady (s : Schedules π θ) (p : π) :
    Steady fun fuel => s.pushTriggers fuel p := by
  refine Steady.bind (Steady.const _) fun active => ?_
  exact Steady.bind (pushFollowing_steady s active) fun _ => Steady.const _

end Schedules

namespace Events

open Clock

variable {ε π θ : Type} [DecidableEq ε] [DecidableEq π] [DecidableEq θ]
  {s t u : Events ε π θ} {q r k : List ε} {e x : ε} {c : EventCall ε π θ} {fuel time : Nat} {p : π}

private theorem startAt_steady (s : Events ε π θ) (e : ε) (time : Nat) :
    Steady fun fuel => s.startAt fuel e time :=
  Steady.bind (Clock.startAt_steady s.clock e time) fun _ => Steady.const _

private theorem restart_steady (s : Events ε π θ) (e : ε) : Steady fun fuel => s.restart fuel e := by
  unfold Events.restart
  cases (s.event e).periodicSchedule with
  | none => exact startAt_steady _ _ _
  | some p =>
      refine Steady.bind ?_ fun s => Steady.bind (Steady.const _) fun _ => startAt_steady _ _ _
      exact Steady.bind (Schedules.pushTriggers_steady s.schedules p) fun _ => Steady.const _

private theorem handle_steady (s : Events ε π θ) (e : ε) : Steady fun fuel => s.handle fuel e := by
  unfold Events.handle
  refine Steady.ite ?_ (Steady.const _)
  exact Steady.bind (restart_steady _ _) fun _ => Steady.const _

/-- How often the event was pushed, that is, how often its associated inputs were notified. -/
def notifications (s : Events ε π θ) (e : ε) : Nat := s.trace.countP fun entry => entry.2 = .push e

theorem notifications_emit (effect : Effect ε θ) :
    (s.emit effect).notifications e = s.notifications e + if effect = .push e then 1 else 0 := by
  simp [notifications, emit, List.countP_append, List.countP_cons]

/-- All times are below the sign bit. -/
structure Below (s : Events ε π θ) : Prop where
  now : s.clock.time < 2 ^ 63
  times : ∀ e, s.clock.nextActivation_ms e < 2 ^ 63

/-- One round of the loop of `handleEvents`: the first pending event is read and handled. -/
def Round (s u : Events ε π θ) : Prop :=
  ∃ clock e, Returns (fun fuel => s.clock.readFirstPending fuel) (clock, some e) ∧
    Returns (fun fuel => ({ s with clock := clock } : Events ε π θ).handle fuel e) u

/-- The states on the way of a call and behind it. -/
def Passes (s : Events ε π θ) (c : EventCall ε π θ) (u : Events ε π θ) : Prop :=
  match c with
  | .handleEvents => Relation.ReflTransGen Round s u
  | c => Step s c u

/-- No event is started that stands in the queue unmarked. -/
def Startable (s : Events ε π θ) : EventCall ε π θ → Prop
  | .setPeriodicTiming e _ _ => s.Restartable e
  | .setPeriodicSchedule e _ _ _ => s.Restartable e
  | .trigger e time => (s.event e).configured = false → 0 < time → s.Restartable e
  | .reset e => (s.event e).configured = true → (s.event e).periodical = false → s.Restartable e
  | _ => True

/-- An operation on the event `x`: the queue stays in order, and the others stay as they are. -/
structure Touches (x : ε) (s : Events ε π θ) (q : List ε) (t : Events ε π θ) (r : List ε) : Prop where
  represents : t.clock.Represents r
  time : t.clock.time = s.clock.time
  mem : ∀ e, e ≠ x → (e ∈ r ↔ e ∈ q)
  times : ∀ e, e ≠ x → t.clock.nextActivation_ms e = s.clock.nextActivation_ms e
  event : ∀ e, e ≠ x → t.event e = s.event e
  handlings : ∀ e, e ≠ x → t.handlings e = s.handlings e
  notifications : ∀ e, e ≠ x → t.notifications e = s.notifications e

private theorem Touches.refl (h : s.clock.Represents q) : Touches x s q s q :=
  ⟨h, rfl, fun _ _ => Iff.rfl, fun _ _ => rfl, fun _ _ => rfl, fun _ _ => rfl, fun _ _ => rfl⟩

private theorem Touches.trans (h : Touches x s q t r) (h' : Touches x t r u k) : Touches x s q u k where
  represents := h'.represents
  time := h'.time.trans h.time
  mem e he := (h'.mem e he).trans (h.mem e he)
  times e he := (h'.times e he).trans (h.times e he)
  event e he := (h'.event e he).trans (h.event e he)
  handlings e he := (h'.handlings e he).trans (h.handlings e he)
  notifications e he := (h'.notifications e he).trans (h.notifications e he)

private theorem Touches.setEvent (h : s.clock.Represents q) (event : EventImpl π) :
    Touches x s q (s.setEvent x event) q :=
  { Touches.refl h with event := fun _ he => Function.update_of_ne he _ _ }

private theorem Touches.clock {clock : Clock ε} (h : clock.Represents r)
    (htime : clock.time = s.clock.time) (hmem : ∀ e, e ≠ x → (e ∈ r ↔ e ∈ q))
    (htimes : ∀ e, e ≠ x → clock.nextActivation_ms e = s.clock.nextActivation_ms e) :
    Touches x s q { s with clock := clock } r :=
  ⟨h, htime, hmem, htimes, fun _ _ => rfl, fun _ _ => rfl, fun _ _ => rfl⟩

private theorem Touches.schedules (h : s.clock.Represents q) (schedules : Schedules π θ) :
    Touches x s q { s with schedules := schedules } q :=
  { Touches.refl h with }

private theorem Touches.emit (h : s.clock.Represents q) {effect : Effect ε θ}
    (hhandle : ∀ e, e ≠ x → effect ≠ .handle e) (hpush : ∀ e, e ≠ x → effect ≠ .push e) :
    Touches x s q (s.emit effect) q :=
  { Touches.refl h with
    handlings := fun e he => by rw [handlings_emit, if_neg (hhandle e he), Nat.add_zero]
    notifications := fun e he => by rw [notifications_emit, if_neg (hpush e he), Nat.add_zero] }

private theorem Touches.dequeue (h : s.clock.Represents q) (x : ε) :
    ∃ clock, Returns (fun fuel => s.dequeue fuel x) { s with clock := clock } ∧
      Touches x s q { s with clock := clock } (q.erase x) := by
  obtain ⟨clock, hret, hclock, htime, hact, _⟩ := dequeue_returns h x
  refine ⟨clock, hret.bind (returns_ok _), .clock hclock htime ?_ ?_⟩
  · exact fun e he => List.mem_erase_of_ne he
  · exact fun e _ => congrFun hact e

theorem Restartable.marked (h : s.Restartable x) (hrep : s.clock.Represents q) (hx : x ∈ q) :
    s.clock.queued x = true :=
  h.resolve_right fun hout => hout ⟨q, hrep.chain, hx⟩

private theorem Touches.dequeueQueued (h : s.clock.Represents q) (x : ε) :
    ∃ clock r, Returns (fun fuel => s.dequeueQueued fuel x) { s with clock := clock } ∧
      Touches x s q { s with clock := clock } r ∧ (s.Restartable x → x ∉ r) := by
  cases hqueued : s.clock.queued x with
  | true =>
      obtain ⟨clock, hret, htouches⟩ := Touches.dequeue h x
      refine ⟨clock, q.erase x, ?_, htouches, fun _ => h.nodup.not_mem_erase⟩
      simp only [Events.dequeueQueued, hqueued, if_true]
      exact hret
  | false =>
      refine ⟨s.clock, q, ?_, .refl h, fun hrestartable hx => ?_⟩
      · simp only [Events.dequeueQueued, hqueued, Bool.false_eq_true, if_false]
        exact returns_ok s
      · rw [hrestartable.marked h hx] at hqueued
        exact Bool.noConfusion hqueued

private theorem Touches.startClock {clock : Clock ε} {wake : Wake} (h : s.clock.Represents q)
    (hx : x ∉ q) (hnow : s.clock.time < 2 ^ 63)
    (hret : Returns (fun fuel => Clock.startAt fuel s.clock x time) (clock, wake))
    (htimes : clock.nextActivation_ms x < 2 ^ 63) :
    ∃ r, Touches x s q { s with clock := clock } r ∧ r.Perm (x :: q) ∧
      clock.nextActivation_ms x = time := by
  obtain ⟨fuel, hstart⟩ := hret.exists
  have hact := startAt_times (h.outside x hx).1 hstart
  have hself : clock.nextActivation_ms x = time := by rw [hact, Function.update_self]
  rw [hself] at htimes
  obtain ⟨clock', wake', r, hret', hclock, hperm, htime, _⟩ := h.startAt hx htimes hnow
  obtain ⟨rfl, rfl⟩ := Prod.mk.inj (hret.unique hret')
  refine ⟨r, .clock hclock htime (fun e he => ?_) (fun e he => ?_), hperm, hself⟩
  · rw [hperm.mem_iff, List.mem_cons, or_iff_right he]
  · rw [hact, Function.update_of_ne he]

private theorem Touches.startAt (h : s.clock.Represents q) (hx : x ∉ q) (hnow : s.clock.time < 2 ^ 63)
    (hret : Returns (fun fuel => s.startAt fuel x time) t) (hbelow : t.Below) :
    ∃ r, Touches x s q t r ∧ r.Perm (x :: q) ∧ t.clock.nextActivation_ms x = time ∧
      t.event = s.event ∧ t.handlings x = s.handlings x ∧ t.notifications x = s.notifications x := by
  obtain ⟨fuel, hstart⟩ := hret.exists
  obtain ⟨⟨clock, wake⟩, hclock, hstart⟩ := bind_eq_ok.mp hstart
  obtain rfl := Except.ok.inj hstart
  have hreturns := (Clock.startAt_steady s.clock x time).returns hclock
  obtain ⟨r, htouches, hperm, hself⟩ := Touches.startClock h hx hnow hreturns (hbelow.times x)
  have hemit : Touches x { s with clock := clock } r
      (({ s with clock := clock } : Events ε π θ).emit (.wake wake)) r :=
    .emit htouches.represents (fun _ _ => by simp) (fun _ _ => by simp)
  refine ⟨r, htouches.trans hemit, hperm, hself, rfl, ?_, ?_⟩
  · exact handlings_emit _
  · exact notifications_emit _

private theorem Touches.startIn {delay : Nat} (h : s.clock.Represents q) (hx : x ∉ q)
    (hnow : s.clock.time < 2 ^ 63) (hret : Returns (fun fuel => s.startIn fuel x delay) t)
    (hbelow : t.Below) : ∃ r, Touches x s q t r ∧ r.Perm (x :: q) := by
  by_cases hdelay : delay = 0
  · subst hdelay
    obtain ⟨clock, hstart, hclock, htime, hact, _⟩ := startIn_zero h hx
    obtain rfl := hret.unique (hstart.bind (returns_ok _))
    have hmem : ∀ e, e ≠ x → (e ∈ x :: q ↔ e ∈ q) := fun e he => by
      rw [List.mem_cons, or_iff_right he]
    have htimes : ∀ e, e ≠ x → clock.nextActivation_ms e = s.clock.nextActivation_ms e := fun e he => by
      rw [hact, Function.update_of_ne he]
    have htouches : Touches x s q { s with clock := clock } (x :: q) := .clock hclock htime hmem htimes
    exact ⟨x :: q, htouches.trans (.emit htouches.represents (fun _ _ => by simp) fun _ _ => by simp),
      List.Perm.refl _⟩
  · have hstart : Returns (fun fuel => s.startAt fuel x ((s.clock.time + delay) % 2 ^ 64)) t := by
      apply hret.congr
      intro fuel
      simp only [Events.startIn, Events.startAt, Clock.startIn, ne_eq, hdelay, not_false_eq_true,
        if_true]
    obtain ⟨r, htouches, hperm, _⟩ := Touches.startAt h hx hnow hstart hbelow
    exact ⟨r, htouches, hperm⟩

private theorem Touches.stop (h : s.clock.Represents q) (hret : Returns (fun fuel => s.stop fuel x) t) :
    ∃ r, Touches x s q t r := by
  obtain ⟨clock, hdequeue, htouches⟩ := Touches.dequeue h x
  have hrest := hret.rest hdequeue
  obtain rfl := (returns_ok _).unique hrest
  exact ⟨_, htouches.trans (.setEvent htouches.represents _)⟩

private theorem Touches.configurePeriodicTiming (h : s.clock.Represents q) (hx : x ∉ q)
    (period offset : Nat) :
    Touches x s q (s.configurePeriodicTiming x period offset) q :=
  { Touches.refl h with
    represents := h.setNextActivation hx _
    times := fun _ he => Function.update_of_ne he _ _
    event := fun _ he => Function.update_of_ne he _ _ }

private theorem Touches.setPeriodicTiming {period offset : Nat} (h : s.clock.Represents q)
    (hnow : s.clock.time < 2 ^ 63) (hx : s.Restartable x)
    (hret : Returns (fun fuel => s.setPeriodicTiming fuel x period offset) t) (hbelow : t.Below) :
    ∃ r, Touches x s q t r := by
  obtain ⟨clock, r, hdequeue, htouches, hout⟩ := Touches.dequeueQueued h x
  have hrest := hret.rest hdequeue
  let u : Events ε π θ := { s with clock := clock }
  have hconfigured : Touches x u r (u.configurePeriodicTiming x period offset) r :=
    .configurePeriodicTiming htouches.represents (hout hx) period offset
  have hset := (htouches.trans hconfigured).trans (.setEvent hconfigured.represents
    { (u.configurePeriodicTiming x period offset).event x with periodicSchedule := none })
  obtain ⟨k, hstart, _⟩ :=
    Touches.startAt hset.represents (hout hx) (lt_of_eq_of_lt hset.time hnow) hrest hbelow
  exact ⟨k, hset.trans hstart⟩

private theorem Touches.setPeriodicSchedule {period offset : Nat} (h : s.clock.Represents q)
    (hnow : s.clock.time < 2 ^ 63) (hx : s.Restartable x)
    (hret : Returns (fun fuel => s.setPeriodicSchedule fuel x period offset p) t) (hbelow : t.Below) :
    ∃ r, Touches x s q t r := by
  obtain ⟨clock, r, hdequeue, htouches, hout⟩ := Touches.dequeueQueued h x
  let u : Events ε π θ := { s with clock := clock }
  let v := u.setEvent x { u.event x with periodicSchedule := some p }
  let w := v.configurePeriodicTiming x period offset
  have hset : Touches x s q v r := htouches.trans (.setEvent htouches.represents _)
  have hrest : Returns (fun fuel => if (v.schedules.schedule p).triggers ≠ none then
      ((w.schedules.configured p (w.clock.nextActivation_ms x) period).stepToNextTriggerOffset p >>=
        fun r =>
          let s : Events ε π θ := { w with schedules := r.1 }
          if r.2 < period then s.startAt fuel x r.2 else s.stop fuel x)
      else .ok (v.setEvent x { v.event x with periodicSchedule := none })) t := hret.rest hdequeue
  by_cases htriggers : (v.schedules.schedule p).triggers ≠ none
  · simp only [if_pos htriggers] at hrest
    have hconfigured : Touches x s q w r :=
      hset.trans (.configurePeriodicTiming hset.represents (hout hx) period offset)
    obtain ⟨fuel, hok⟩ := hrest.exists
    obtain ⟨⟨schedules, time⟩, hstep, _⟩ := bind_eq_ok.mp hok
    simp only [hstep, ok_bind] at hrest
    have hscheduled : Touches x s q { w with schedules := schedules } r :=
      hconfigured.trans (.schedules hconfigured.represents schedules)
    by_cases hin : time < period
    · simp only [if_pos hin] at hrest
      obtain ⟨k, hstart, _⟩ := Touches.startAt hscheduled.represents (hout hx)
        (lt_of_eq_of_lt hscheduled.time hnow) hrest hbelow
      exact ⟨k, hscheduled.trans hstart⟩
    · simp only [if_neg hin] at hrest
      obtain ⟨k, hstop⟩ := Touches.stop hscheduled.represents hrest
      exact ⟨k, hscheduled.trans hstop⟩
  · simp only [if_neg htriggers] at hrest
    obtain rfl := (returns_ok _).unique hrest
    exact ⟨r, hset.trans (.setEvent hset.represents _)⟩

theorem Touches.setRelativeTiming {delay : Nat} (h : s.clock.Represents q)
    (hret : Returns (fun fuel => s.setRelativeTiming fuel x delay) t) :
    (∃ r, Touches x s q t r) ∧ t.event x = { s.event x with
      periodical := false, period_ms := delay, configured := true } := by
  obtain ⟨clock, r, hdequeue, htouches, _⟩ := Touches.dequeueQueued h x
  have hrest := hret.rest hdequeue
  obtain rfl := (returns_ok _).unique hrest
  exact ⟨⟨r, htouches.trans (.setEvent htouches.represents _)⟩, Function.update_self _ _ _⟩

private theorem Touches.trigger {delay : Nat} (h : s.clock.Represents q) (hnow : s.clock.time < 2 ^ 63)
    (hx : s.Startable (.trigger x delay)) (hret : Returns (fun fuel => s.trigger fuel x delay) t)
    (hbelow : t.Below) : ∃ r, Touches x s q t r := by
  cases hconfigured : (s.event x).configured with
  | true =>
      have hsame : Returns (fun _ => .ok s) t := by
        apply hret.congr
        intro fuel
        simp only [Events.trigger, hconfigured, if_true]
        rfl
      obtain rfl := (returns_ok s).unique hsame
      exact ⟨q, .refl h⟩
  | false =>
      obtain ⟨clock, r, hdequeue, htouches, hout⟩ := Touches.dequeueQueued h x
      let u : Events ε π θ := { s with clock := clock }
      have hdelayed : Returns (fun fuel => s.dequeueQueued fuel x >>= fun s =>
          if delay = 0 then .ok (if s.shallFire x then s.emit (.push x) else s)
          else s.startIn fuel x delay) t := by
        apply hret.congr
        intro fuel
        simp only [Events.trigger, hconfigured, Bool.false_eq_true, if_false]
        rfl
      have hrest := hdelayed.rest hdequeue
      by_cases hdelay : delay = 0
      · simp only [if_pos hdelay] at hrest
        obtain rfl := (returns_ok _).unique hrest
        have hpush : Touches x u r (if u.shallFire x then u.emit (.push x) else u) r := by
          split
          · exact .emit htouches.represents (fun _ _ => by simp)
              fun e he heq => he (Effect.push.inj heq).symm
          · exact .refl htouches.represents
        exact ⟨r, htouches.trans hpush⟩
      · simp only [if_neg hdelay] at hrest
        have hnot := hout (hx hconfigured (Nat.pos_of_ne_zero hdelay))
        obtain ⟨k, hstart, _⟩ :=
          Touches.startIn htouches.represents hnot (lt_of_eq_of_lt htouches.time hnow) hrest hbelow
        exact ⟨k, htouches.trans hstart⟩

private theorem Touches.reset (h : s.clock.Represents q) (hnow : s.clock.time < 2 ^ 63)
    (hx : s.Startable (.reset x)) (hret : Returns (fun fuel => s.reset fuel x) t) (hbelow : t.Below) :
    ∃ r, Touches x s q t r := by
  by_cases hrelative : ((s.event x).configured && !(s.event x).periodical) = true
  · obtain ⟨clock, r, hdequeue, htouches, hout⟩ := Touches.dequeueQueued h x
    have hdelayed : Returns (fun fuel => s.dequeueQueued fuel x >>= fun s =>
        s.startIn fuel x (s.event x).period_ms) t := by
      apply hret.congr
      intro fuel
      simp only [Events.reset, hrelative, if_true]
    rw [Bool.and_eq_true, Bool.not_eq_true'] at hrelative
    obtain ⟨k, hstart, _⟩ := Touches.startIn htouches.represents (hout (hx hrelative.1 hrelative.2))
      (lt_of_eq_of_lt htouches.time hnow) (hdelayed.rest hdequeue) hbelow
    exact ⟨k, htouches.trans hstart⟩
  · have hsame : Returns (fun _ => .ok s) t := by
      apply hret.congr
      intro fuel
      simp only [Events.reset, hrelative]
      rfl
    obtain rfl := (returns_ok s).unique hsame
    exact ⟨q, .refl h⟩

private theorem Touches.emitTriggers (h : s.clock.Represents q) (l : List θ) :
    Touches x s q (l.foldl (fun s t => s.emit (.pushTrigger t)) s) q ∧
      (l.foldl (fun s t => s.emit (.pushTrigger t)) s).event = s.event := by
  induction l generalizing s with
  | nil => exact ⟨.refl h, rfl⟩
  | cons a l ih =>
      have hemit : Touches x s q (s.emit (.pushTrigger a)) q :=
        .emit h (fun _ _ => by simp) (fun _ _ => by simp)
      obtain ⟨hrest, hevent⟩ := ih hemit.represents
      exact ⟨hemit.trans hrest, hevent⟩

private theorem Touches.restart (h : s.clock.Represents q) (hx : x ∉ q) (hnow : s.clock.time < 2 ^ 63)
    (hret : Returns (fun fuel => s.restart fuel x) t) (hbelow : t.Below) :
    ∃ r, Touches x s q t r ∧ t.event = s.event := by
  cases hschedule : (s.event x).periodicSchedule with
  | none =>
      simp only [Events.restart, hschedule] at hret
      obtain ⟨r, htouches, _, _, hevent, _⟩ := Touches.startAt h hx hnow hret hbelow
      exact ⟨r, htouches, hevent⟩
  | some p =>
      simp only [Events.restart, hschedule] at hret
      obtain ⟨fuel, hok⟩ := hret.exists
      obtain ⟨u, hpush, hok⟩ := bind_eq_ok.mp hok
      obtain ⟨⟨schedules, time⟩, hstep, _⟩ := bind_eq_ok.mp hok
      have hpushes : Steady fun fuel => s.pushTriggers fuel p :=
        Steady.bind (Schedules.pushTriggers_steady s.schedules p) fun _ => Steady.const _
      have hrest := hret.rest (hpushes.returns hpush)
      simp only [hstep, ok_bind] at hrest
      obtain ⟨⟨pushed, l⟩, _, hu⟩ := bind_eq_ok.mp hpush
      obtain rfl := Except.ok.inj hu
      have hpushed : Touches x s q { s with schedules := pushed } q := .schedules h pushed
      obtain ⟨hemit, hevent⟩ := Touches.emitTriggers (x := x) hpushed.represents l
      have hbefore := hpushed.trans hemit
      have hstepped := hbefore.trans (.schedules hbefore.represents schedules)
      obtain ⟨r, hstart, _, _, hevent', _⟩ :=
        Touches.startAt hstepped.represents hx (lt_of_eq_of_lt hstepped.time hnow) hrest hbelow
      exact ⟨r, hstepped.trans hstart, hevent'.trans hevent⟩

theorem Touches.handle (h : s.clock.Represents q) (hx : x ∉ q) (hnow : s.clock.time < 2 ^ 63)
    (hret : Returns (fun fuel => s.handle fuel x) t) (hbelow : t.Below) :
    ∃ r, Touches x s q t r ∧ t.event = s.event := by
  have hhandle : Touches x s q (s.emit (.handle x)) q :=
    .emit h (fun e he heq => he (Effect.handle.inj heq).symm) fun _ _ => by simp
  -- behind the restart the event is pushed, or not
  have hrestart : ∃ u r, Touches x s q u r ∧ u.event = s.event ∧
      t = if u.shallFire x then u.emit (.push x) else u := by
    unfold Events.handle at hret
    simp only at hret
    split at hret
    · obtain ⟨fuel, hok⟩ := hret.exists
      obtain ⟨u, hu, hpush⟩ := bind_eq_ok.mp hok
      have hclock : t.clock = u.clock := by
        rw [← Except.ok.inj hpush]
        split <;> rfl
      have hubelow : u.Below := ⟨hclock ▸ hbelow.now, fun e => hclock ▸ hbelow.times e⟩
      obtain ⟨r, htouches, hevent⟩ :=
        Touches.restart hhandle.represents hx hnow ((restart_steady _ x).returns hu) hubelow
      exact ⟨u, r, hhandle.trans htouches, hevent, (Except.ok.inj hpush).symm⟩
    · exact ⟨_, q, hhandle, rfl, ((returns_ok _).unique hret).symm⟩
  obtain ⟨u, r, htouches, hevent, rfl⟩ := hrestart
  have hpush : Touches x u r (if u.shallFire x then u.emit (.push x) else u) r := by
    split
    · exact .emit htouches.represents (fun _ _ => by simp) fun e he heq => he (Effect.push.inj heq).symm
    · exact .refl htouches.represents
  refine ⟨r, htouches.trans hpush, ?_⟩
  rw [← hevent]
  split <;> rfl

private theorem handleEvents_rounds {I : Events ε π θ → List ε → Prop}
    (hround : ∀ s x q clock u, I s (x :: q) → s.clock.Represents (x :: q) → s.Below →
      s.clock.nextActivation_ms x ≤ s.clock.time → clock.Represents q → clock.time = s.clock.time →
      clock.nextActivation_ms = s.clock.nextActivation_ms →
      Returns (fun fuel => ({ s with clock := clock } : Events ε π θ).handle fuel x) u → u.Below →
      ∃ r, I u r ∧ u.clock.Represents r ∧ u.clock.time = s.clock.time)
    (hI : I s q) (h : s.clock.Represents q) (hret : s.handleEvents fuel = .ok t)
    (hbelow : ∀ u, Relation.ReflTransGen Round s u → u.Below) :
    ∃ r, I t r ∧ t.clock.Represents r ∧ t.clock.time = s.clock.time ∧
      ∀ e ∈ r, t.clock.time < t.clock.nextActivation_ms e := by
  induction fuel generalizing s q with
  | zero => exact absurd hret (by simp [Events.handleEvents])
  | succ fuel ih =>
      obtain ⟨⟨clock, found⟩, hread, hret⟩ := bind_eq_ok.mp hret
      have hread := (readFirstPending_steady s.clock).returns hread
      by_cases hq : ∀ e ∈ q.head?, s.clock.time < s.clock.nextActivation_ms e
      · obtain ⟨rfl, rfl⟩ := Prod.mk.inj (hread.unique (readFirstPending_none h hq))
        obtain rfl := Except.ok.inj hret
        exact ⟨q, hI, h, rfl, h.not_due hq⟩
      · push Not at hq
        obtain ⟨x, hhead, hdue⟩ := hq
        obtain ⟨q, rfl⟩ := List.head?_eq_some_iff.mp hhead
        obtain ⟨clock', hread', hclock, htime, hact, _⟩ := readFirstPending_due h hdue
        obtain ⟨rfl, rfl⟩ := Prod.mk.inj (hread.unique hread')
        obtain ⟨u, hhandle, hret⟩ := bind_eq_ok.mp hret
        have hhandle := (handle_steady _ x).returns hhandle
        have hfirst : Round s u := ⟨clock, x, hread, hhandle⟩
        obtain ⟨r, hI', hr, htime'⟩ :=
          hround s x q clock u hI h (hbelow s .refl) hdue hclock htime hact hhandle
            (hbelow u (.single hfirst))
        obtain ⟨k, hIk, hk, htimek, hnone⟩ :=
          ih hI' hr hret fun v hv => hbelow v (.head hfirst hv)
        exact ⟨k, hIk, hk, htimek.trans htime', hnone⟩

/-- The event whose operation the call is. -/
def target : EventCall ε π θ → Option ε
  | .setPeriodicTiming e _ _ => some e
  | .setPeriodicSchedule e _ _ _ => some e
  | .setRelativeTiming e _ => some e
  | .trigger e _ => some e
  | .stop e => some e
  | .reset e => some e
  | _ => none

private theorem passes_of_target (htarget : target c = some x) (hstep : Step s c t) : Passes s c t := by
  cases c with
  | handleEvents => cases htarget
  | _ => exact hstep

private theorem Touches.perform (h : s.clock.Represents q) (hnow : s.clock.time < 2 ^ 63)
    (hc : s.Startable c) (htarget : target c = some x) (hstep : Step s c t) (hbelow : t.Below) :
    ∃ r, Touches x s q t r := by
  cases c with
  | setPeriodicTiming e period offset =>
      obtain rfl := Option.some.inj htarget
      exact Touches.setPeriodicTiming h hnow hc hstep hbelow
  | setPeriodicSchedule e period offset p =>
      obtain rfl := Option.some.inj htarget
      exact Touches.setPeriodicSchedule h hnow hc hstep hbelow
  | setRelativeTiming e delay =>
      obtain rfl := Option.some.inj htarget
      exact (Touches.setRelativeTiming h hstep).1
  | trigger e time =>
      obtain rfl := Option.some.inj htarget
      exact Touches.trigger h hnow hc hstep hbelow
  | stop e =>
      obtain rfl := Option.some.inj htarget
      exact Touches.stop h hstep
  | reset e =>
      obtain rfl := Option.some.inj htarget
      exact Touches.reset h hnow hc hstep hbelow
  | add p trigger => cases htarget
  | handleEvents => cases htarget
  | advance span => cases htarget

/-- What is kept by the operations on other events, by changes of the schedules and by the passing of
time is kept by every call that neither is an operation on the event nor handles events. -/
structure Ignores (e : ε) (I : Events ε π θ → List ε → Prop) : Prop where
  touches : ∀ {s x q t r}, x ≠ e → I s q → Touches x s q t r → I t r
  schedules : ∀ {s q}, I s q → ∀ schedules, I { s with schedules := schedules } q
  advance : ∀ {s q}, I s q → ∀ span,
    I { s with clock := { s.clock with time := s.clock.time + span } } q

/-- If the handling of the event keeps it as well, then so does `handleEvents`. -/
structure Preserves (e : ε) (I : Events ε π θ → List ε → Prop) : Prop extends Ignores e I where
  handle : ∀ {s q clock u}, I s (e :: q) → e ∉ q → s.Below →
    s.clock.nextActivation_ms e ≤ s.clock.time → clock.Represents q → clock.time = s.clock.time →
    clock.nextActivation_ms = s.clock.nextActivation_ms →
    Returns (fun fuel => ({ s with clock := clock } : Events ε π θ).handle fuel e) u → u.Below →
    ∃ r, I u r ∧ u.clock.Represents r ∧ u.clock.time = s.clock.time

/-- The queue is in order, and the time below the sign bit. -/
structure Orderly (s : Events ε π θ) (q : List ε) : Prop where
  represents : s.clock.Represents q
  now : s.clock.time < 2 ^ 63

/-- A step in which no event is started that stands in the queue unmarked, all times below the sign
bit. -/
structure Ordinary (s : Events ε π θ) (c : EventCall ε π θ) (t : Events ε π θ) : Prop where
  step : Step s c t
  startable : s.Startable c
  below : ∀ u, Passes s c u → u.Below

/-- A step that is no operation on the event. -/
structure Leaves (e : ε) (s : Events ε π θ) (c : EventCall ε π θ) (t : Events ε π θ) : Prop extends
    Ordinary s c t where
  target : target c ≠ some e

variable {I : Events ε π θ → List ε → Prop}

theorem Preserves.handleEvents (hI : Preserves e I) (h : I s q) (hrep : s.clock.Represents q)
    (hret : s.handleEvents fuel = .ok t) (hbelow : ∀ u, Relation.ReflTransGen Round s u → u.Below) :
    ∃ r, I t r ∧ t.clock.Represents r ∧ t.clock.time = s.clock.time ∧
      ∀ e ∈ r, t.clock.time < t.clock.nextActivation_ms e := by
  refine handleEvents_rounds ?_ h hrep hret hbelow
  intro s x q clock u h hqueue hnow hdue hclock htime hact hhandle hbelow
  have hout : x ∉ q := (List.nodup_cons.mp hqueue.nodup).1
  by_cases hx : x = e
  · subst hx
    exact hI.handle h hout hnow hdue hclock htime hact hhandle hbelow
  · have hmem : ∀ f, f ≠ x → (f ∈ q ↔ f ∈ x :: q) := fun f hf => by rw [List.mem_cons, or_iff_right hf]
    have hread : Touches x s (x :: q) { s with clock := clock } q :=
      .clock hclock htime hmem fun f _ => congrFun hact f
    obtain ⟨r, htouches, _⟩ :=
      Touches.handle hclock hout (lt_of_eq_of_lt htime hnow.now) hhandle hbelow
    have hall := hread.trans htouches
    exact ⟨r, hI.touches hx h hall, hall.represents, hall.time⟩

private theorem Ignores.operation (hI : Ignores e I) (h : I s q) (hq : s.Orderly q) (hc : s.Startable c)
    (htarget : target c = some x) (hne : some x ≠ some e) (hstep : Step s c t) (hbelow : t.Below) :
    ∃ r, I t r ∧ t.Orderly r := by
  obtain ⟨r, htouches⟩ := Touches.perform hq.represents hq.now hc htarget hstep hbelow
  have hx : x ≠ e := fun heq => hne (congrArg some heq)
  exact ⟨r, hI.touches hx h htouches, htouches.represents, hbelow.now⟩

theorem Ignores.step (hI : Ignores e I) (h : I s q) (hq : s.Orderly q) (hstep : Leaves e s c t)
    (hc : c ≠ .handleEvents) : ∃ r, I t r ∧ t.Orderly r := by
  obtain ⟨⟨hstep, hstartable, hbelow⟩, htarget⟩ := hstep
  cases c with
  | handleEvents => exact absurd rfl hc
  | add p trigger =>
      have hnow := (hbelow t hstep).now
      obtain ⟨fuel, hok⟩ := hstep.exists
      obtain ⟨schedules, _, hok⟩ := bind_eq_ok.mp hok
      obtain rfl := Except.ok.inj hok
      exact ⟨q, hI.schedules h schedules, hq.represents, hnow⟩
  | advance span =>
      have hnow := (hbelow t hstep).now
      obtain rfl := (returns_ok _).unique hstep
      exact ⟨q, hI.advance h span, hq.represents.advance (Nat.le_add_right _ _), hnow⟩
  | _ => exact hI.operation h hq hstartable rfl htarget hstep (hbelow t hstep)

theorem Preserves.step (hI : Preserves e I) (h : I s q) (hq : s.Orderly q) (hstep : Leaves e s c t) :
    ∃ r, I t r ∧ t.Orderly r := by
  by_cases hc : c = .handleEvents
  · subst hc
    obtain ⟨fuel, hret⟩ := hstep.step.exists
    obtain ⟨r, hr, hrep, htime, _⟩ := hI.handleEvents h hq.represents hret hstep.below
    exact ⟨r, hr, hrep, lt_of_eq_of_lt htime hq.now⟩
  · exact hI.toIgnores.step h hq hstep hc

theorem Preserves.run (hI : Preserves e I) {l : List (EventCall ε π θ)} (h : I s q)
    (hq : s.Orderly q) (hrun : Run (Leaves e) s l t) : ∃ r, I t r ∧ t.Orderly r := by
  induction hrun with
  | start => exact ⟨q, h, hq⟩
  | next _ hstep ih =>
      obtain ⟨r, hr, hrep⟩ := ih
      exact hI.step hr hrep hstep

private theorem preserves_true (e : ε) : Preserves e fun (_ : Events ε π θ) _ => True where
  touches _ _ _ := trivial
  schedules _ _ := trivial
  advance _ _ := trivial
  handle _ hout hnow _ hclock htime _ hhandle hbelow := by
    obtain ⟨r, htouches, _⟩ :=
      Touches.handle hclock hout (lt_of_eq_of_lt htime hnow.now) hhandle hbelow
    exact ⟨r, trivial, htouches.represents, htouches.time.trans htime⟩

theorem Orderly.step (h : s.Orderly q) (e : ε) (hstep : Ordinary s c t) : ∃ r, t.Orderly r := by
  by_cases htarget : target c = some e
  · have hbelow := hstep.below t (passes_of_target htarget hstep.step)
    obtain ⟨r, htouches⟩ :=
      Touches.perform h.represents h.now hstep.startable htarget hstep.step hbelow
    exact ⟨r, htouches.represents, hbelow.now⟩
  · obtain ⟨r, _, hr⟩ := (preserves_true e).step trivial h ⟨hstep, htarget⟩
    exact ⟨r, hr⟩

end Events

end TaskingFramework
