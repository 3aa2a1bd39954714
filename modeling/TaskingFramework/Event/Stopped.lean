import TaskingFramework.Clock.AnyTime
import TaskingFramework.Event.Periodic
import TaskingFramework.Event.QueuedOnce

/-!
# Stopped events

An event that was stopped is queued again by `trigger` only. It is handled once for it and leaves the
queue for good, unless a period of an earlier timing was left behind.
-/

set_option linter.unusedSectionVars false

namespace TaskingFramework

namespace Events

open Foundation

variable {ε π θ : Type} [DecidableEq ε] [DecidableEq π] [DecidableEq θ]
  {s t u : Events ε π θ} {q r k : List ε} {e x : ε} {c : EventCall ε π θ} {fuel : Nat} {p : π}

def InQueue (s : Events ε π θ) (e : ε) : Prop := ∃ q, s.clock.Queue q ∧ e ∈ q

/-- An event in the queue is marked as queued. -/
def Restartable (s : Events ε π θ) (e : ε) : Prop := s.clock.queued e = true ∨ ¬ s.InQueue e

/-- No event is started that stands in the queue unmarked, and no event is triggered with a delay that
is not configured but still periodical. -/
def Undisturbed (s : Events ε π θ) : EventCall ε π θ → Prop
  | .setPeriodicTiming e _ _ => s.Restartable e
  | .setPeriodicSchedule e _ _ _ => s.Restartable e
  | .trigger e time => (s.event e).configured = false → 0 < time →
      s.Restartable e ∧ (s.event e).periodical = false
  | .reset e => (s.event e).configured = true → (s.event e).periodical = false → s.Restartable e
  | _ => True

/-- A new timing for the event. -/
def Configures (e : ε) : EventCall ε π θ → Prop
  | .setPeriodicTiming x _ _ => x = e
  | .setPeriodicSchedule x _ _ _ => x = e
  | .setRelativeTiming x _ => x = e
  | _ => False

/-- An operation on the event `x`: no other event joins the queue or is changed, and none is handled. -/
structure Moves (x : ε) (s : Events ε π θ) (q : List ε) (t : Events ε π θ) (r : List ε) : Prop where
  queue : t.clock.Queue r
  subset : r ⊆ x :: q
  event : ∀ e, e ≠ x → t.event e = s.event e
  handlings : ∀ e, t.handlings e = s.handlings e

private theorem Moves.refl (h : s.clock.Queue q) : Moves x s q s q :=
  ⟨h, List.subset_cons_self x q, fun _ _ => rfl, fun _ => rfl⟩

private theorem Moves.trans (h : Moves x s q t r) (h' : Moves x t r u k) : Moves x s q u k := by
  refine ⟨h'.queue, ?_, ?_, ?_⟩
  · intro f hf
    rcases List.mem_cons.mp (h'.subset hf) with rfl | hr
    · exact List.mem_cons_self
    · exact h.subset hr
  · intro e he
    rw [h'.event e he, h.event e he]
  · intro e
    rw [h'.handlings, h.handlings]

private theorem Moves.mem (h : Moves x s q t r) (he : e ≠ x) (hmem : e ∈ r) : e ∈ q :=
  (List.mem_cons.mp (h.subset hmem)).resolve_left he

private theorem Moves.setEvent (h : s.clock.Queue q) (event : EventImpl π) :
    Moves x s q (s.setEvent x event) q :=
  ⟨h, List.subset_cons_self x q, fun _ he => Function.update_of_ne he _ _, fun _ => rfl⟩

private theorem Moves.emit (h : s.clock.Queue q) {effect : Effect ε θ}
    (heffect : ∀ e, effect ≠ .handle e) :
    Moves x s q (s.emit effect) q := by
  refine ⟨h, List.subset_cons_self x q, fun _ _ => rfl, fun e => ?_⟩
  rw [handlings_emit, if_neg (heffect e), Nat.add_zero]

private theorem Moves.schedules (h : s.clock.Queue q) (schedules : Schedules π θ) :
    Moves x s q { s with schedules := schedules } q :=
  ⟨h, List.subset_cons_self x q, fun _ _ => rfl, fun _ => rfl⟩

private theorem Moves.clock {clock : Clock ε} (hqueue : clock.Queue r) (hsub : r ⊆ x :: q) :
    Moves x s q { s with clock := clock } r :=
  ⟨hqueue, hsub, fun _ _ => rfl, fun _ => rfl⟩

private theorem Moves.dequeue (h : s.clock.Queue q) (hret : s.dequeue fuel x = .ok t) :
    ∃ r, Moves x s q t r ∧ x ∉ r ∧ t.event = s.event := by
  obtain ⟨clock, hclock, hret⟩ := bind_eq_ok.mp hret
  obtain rfl := Except.ok.inj hret
  obtain ⟨r, hr, hx, hsub⟩ := h.dequeue hclock
  exact ⟨r, .clock hr fun f hf => List.mem_cons_of_mem x (hsub hf), hx, rfl⟩

private theorem Moves.dequeueQueued (h : s.clock.Queue q) (hret : s.dequeueQueued fuel x = .ok t) :
    ∃ r, Moves x s q t r ∧ (s.Restartable x → x ∉ r) ∧ t.event = s.event ∧ r ⊆ q := by
  unfold Events.dequeueQueued at hret
  split at hret
  · obtain ⟨r, hmoves, hx, hevent⟩ := Moves.dequeue h hret
    refine ⟨r, hmoves, fun _ => hx, hevent, fun f hf => ?_⟩
    exact hmoves.mem (fun heq => hx (heq ▸ hf)) hf
  · rename_i hqueued
    obtain rfl := Except.ok.inj hret
    refine ⟨q, .refl h, fun hrestartable hx => ?_, rfl, List.Subset.refl q⟩
    exact hrestartable.resolve_left hqueued ⟨q, h, hx⟩

private theorem Moves.startAt {time : Nat} (h : s.clock.Queue q) (hx : x ∉ q)
    (hret : s.startAt fuel x time = .ok t) : ∃ r, Moves x s q t r ∧ t.event = s.event := by
  obtain ⟨⟨clock, wake⟩, hclock, hret⟩ := bind_eq_ok.mp hret
  obtain rfl := Except.ok.inj hret
  obtain ⟨r, hr, hsub⟩ := h.startAt hx hclock
  have hmoves : Moves x s q { s with clock := clock } r := .clock hr hsub
  exact ⟨r, hmoves.trans (.emit hr fun _ => by simp), rfl⟩

private theorem Moves.startIn {time : Nat} (h : s.clock.Queue q) (hx : x ∉ q)
    (hret : s.startIn fuel x time = .ok t) : ∃ r, Moves x s q t r ∧ t.event = s.event := by
  obtain ⟨⟨clock, wake⟩, hclock, hret⟩ := bind_eq_ok.mp hret
  obtain rfl := Except.ok.inj hret
  obtain ⟨r, hr, hsub⟩ := h.startIn hx hclock
  have hmoves : Moves x s q { s with clock := clock } r := .clock hr hsub
  exact ⟨r, hmoves.trans (.emit hr fun _ => by simp), rfl⟩

private theorem Moves.stop (h : s.clock.Queue q) (hret : s.stop fuel x = .ok t) :
    ∃ r, Moves x s q t r ∧ x ∉ r ∧ (t.event x).configured = false := by
  obtain ⟨u, hdequeue, hret⟩ := bind_eq_ok.mp hret
  obtain rfl := Except.ok.inj hret
  obtain ⟨r, hmoves, hx, _⟩ := Moves.dequeue h hdequeue
  refine ⟨r, hmoves.trans (.setEvent hmoves.queue _), hx, ?_⟩
  simp [Events.setEvent]

private theorem Moves.configurePeriodicTiming (h : s.clock.Queue q) (period offset : Nat) :
    Moves x s q (s.configurePeriodicTiming x period offset) q :=
  ⟨h, List.subset_cons_self x q, fun _ he => Function.update_of_ne he _ _, fun _ => rfl⟩

private theorem Moves.setPeriodicTiming {period offset : Nat} (h : s.clock.Queue q)
    (hx : s.Restartable x)
    (hret : s.setPeriodicTiming fuel x period offset = .ok t) : ∃ r, Moves x s q t r := by
  obtain ⟨u, hdequeue, hret⟩ := bind_eq_ok.mp hret
  obtain ⟨r, hmoves, hnot, _⟩ := Moves.dequeueQueued h hdequeue
  have hconfigured := hmoves.trans (.configurePeriodicTiming hmoves.queue period offset)
  let v := u.configurePeriodicTiming x period offset
  have hset := hconfigured.trans
    (.setEvent hconfigured.queue { v.event x with periodicSchedule := none })
  obtain ⟨k, hstart, _⟩ := Moves.startAt hset.queue (hnot hx) hret
  exact ⟨k, hset.trans hstart⟩

private theorem Moves.setPeriodicSchedule {period offset : Nat} (h : s.clock.Queue q)
    (hx : s.Restartable x) (hret : s.setPeriodicSchedule fuel x period offset p = .ok t) :
    ∃ r, Moves x s q t r := by
  obtain ⟨u, hdequeue, hret⟩ := bind_eq_ok.mp hret
  obtain ⟨r, hmoves, hnot, _⟩ := Moves.dequeueQueued h hdequeue
  have hset := hmoves.trans (.setEvent hmoves.queue { u.event x with periodicSchedule := some p })
  simp only at hret
  split at hret
  · have hconfigured := hset.trans (.configurePeriodicTiming hset.queue period offset)
    obtain ⟨⟨schedules, time⟩, _, hret⟩ := bind_eq_ok.mp hret
    have hscheduled := hconfigured.trans (.schedules hconfigured.queue schedules)
    simp only at hret
    split at hret
    · obtain ⟨k, hstart, _⟩ := Moves.startAt hscheduled.queue (hnot hx) hret
      exact ⟨k, hscheduled.trans hstart⟩
    · obtain ⟨k, hstop, _⟩ := Moves.stop hscheduled.queue hret
      exact ⟨k, hscheduled.trans hstop⟩
  · obtain rfl := Except.ok.inj hret
    exact ⟨r, hset.trans (.setEvent hset.queue _)⟩

private theorem Moves.setRelativeTiming {delay : Nat} (h : s.clock.Queue q)
    (hret : s.setRelativeTiming fuel x delay = .ok t) : ∃ r, Moves x s q t r := by
  obtain ⟨u, hdequeue, hret⟩ := bind_eq_ok.mp hret
  obtain rfl := Except.ok.inj hret
  obtain ⟨r, hmoves, _, _⟩ := Moves.dequeueQueued h hdequeue
  exact ⟨r, hmoves.trans (.setEvent hmoves.queue _)⟩

private theorem Moves.trigger {time : Nat} (h : s.clock.Queue q) (hc : s.Undisturbed (.trigger x time))
    (hret : s.trigger fuel x time = .ok t) :
    ∃ r, Moves x s q t r ∧ t.event = s.event ∧ (time = 0 → x ∈ r → x ∈ q) := by
  unfold Events.trigger at hret
  split at hret
  · obtain rfl := Except.ok.inj hret
    exact ⟨q, .refl h, rfl, fun _ => id⟩
  · rename_i hconfigured
    obtain ⟨u, hdequeue, hret⟩ := bind_eq_ok.mp hret
    obtain ⟨r, hmoves, hnot, hevent, hsub⟩ := Moves.dequeueQueued h hdequeue
    split at hret
    · obtain rfl := Except.ok.inj hret
      have hemit : Moves x s q (if u.shallFire x then u.emit (.push x) else u) r := by
        split
        · exact hmoves.trans (.emit hmoves.queue fun _ => by simp)
        · exact hmoves
      refine ⟨r, hemit, ?_, fun _ hmem => hsub hmem⟩
      split
      · exact hevent
      · exact hevent
    · rename_i hzero
      obtain ⟨hx, _⟩ := hc (by simpa using hconfigured) (Nat.pos_of_ne_zero hzero)
      obtain ⟨k, hstart, hevent'⟩ := Moves.startIn hmoves.queue (hnot hx) hret
      exact ⟨k, hmoves.trans hstart, hevent'.trans hevent, fun heq => absurd heq hzero⟩

private theorem Moves.reset (h : s.clock.Queue q) (hc : s.Undisturbed (.reset x))
    (hret : s.reset fuel x = .ok t) :
    ∃ r, Moves x s q t r ∧ t.event = s.event ∧ ((s.event x).configured = false → t = s ∧ r = q) := by
  unfold Events.reset at hret
  split at hret
  · rename_i hrelative
    rw [Bool.and_eq_true, Bool.not_eq_true'] at hrelative
    obtain ⟨u, hdequeue, hret⟩ := bind_eq_ok.mp hret
    obtain ⟨r, hmoves, hnot, hevent, _⟩ := Moves.dequeueQueued h hdequeue
    obtain ⟨k, hstart, hevent'⟩ := Moves.startIn hmoves.queue (hnot (hc hrelative.1 hrelative.2)) hret
    refine ⟨k, hmoves.trans hstart, hevent'.trans hevent, fun hnone => ?_⟩
    rw [hrelative.1] at hnone
    exact absurd hnone (by simp)
  · obtain rfl := Except.ok.inj hret
    exact ⟨q, .refl h, rfl, fun _ => ⟨rfl, rfl⟩⟩

private theorem Moves.emitTriggers (h : s.clock.Queue q) (l : List θ) :
    Moves x s q (l.foldl (fun s t => s.emit (.pushTrigger t)) s) q ∧
      (l.foldl (fun s t => s.emit (.pushTrigger t)) s).event = s.event := by
  induction l generalizing s with
  | nil => exact ⟨.refl h, rfl⟩
  | cons a l ih =>
      have hmoves : Moves x s q (s.emit (.pushTrigger a)) q := .emit h fun _ => by simp
      obtain ⟨hrest, hevent⟩ := ih hmoves.queue
      exact ⟨hmoves.trans hrest, hevent⟩

private theorem Moves.restart (h : s.clock.Queue q) (hx : x ∉ q) (hret : s.restart fuel x = .ok t) :
    ∃ r, Moves x s q t r ∧ t.event = s.event := by
  unfold Events.restart at hret
  split at hret
  · exact Moves.startAt h hx hret
  · obtain ⟨u, hpush, hret⟩ := bind_eq_ok.mp hret
    obtain ⟨⟨schedules, pushed⟩, _, hpush⟩ := bind_eq_ok.mp hpush
    obtain rfl := Except.ok.inj hpush
    have hschedules : Moves x s q { s with schedules := schedules } q := .schedules h schedules
    obtain ⟨hemit, hevent⟩ := Moves.emitTriggers (x := x) hschedules.queue pushed
    have hpushed := hschedules.trans hemit
    obtain ⟨⟨schedules', time⟩, _, hret⟩ := bind_eq_ok.mp hret
    have hstepped := hpushed.trans (.schedules hpushed.queue schedules')
    obtain ⟨r, hstart, hevent'⟩ := Moves.startAt hstepped.queue hx hret
    exact ⟨r, hstepped.trans hstart, hevent'.trans hevent⟩

private theorem handle_moves (h : s.clock.Queue q) (hx : x ∉ q) (hret : s.handle fuel x = .ok t) :
    ∃ r, t.clock.Queue r ∧ r ⊆ x :: q ∧ t.event = s.event ∧
      (∀ e, t.handlings e = s.handlings e + if x = e then 1 else 0) ∧
      ((s.event x).periodical = false → r = q) := by
  have hrestart : ∃ u r, Moves x (s.emit (.handle x)) q u r ∧ u.event = s.event ∧
      ((s.event x).periodical = false → r = q) ∧
      t = if u.shallFire x then u.emit (.push x) else u := by
    unfold Events.handle at hret
    simp only at hret
    split at hret
    · rename_i hperiodical
      obtain ⟨u, hu, hret⟩ := bind_eq_ok.mp hret
      obtain ⟨r, hmoves, hevent⟩ := Moves.restart (s := s.emit (.handle x)) h hx hu
      refine ⟨u, r, hmoves, hevent, fun hnot => ?_, (Except.ok.inj hret).symm⟩
      exact absurd (hperiodical.symm.trans hnot) (by simp)
    · exact ⟨_, q, .refl h, rfl, fun _ => rfl, (Except.ok.inj hret).symm⟩
  obtain ⟨u, r, hmoves, hevent, hperiodical, rfl⟩ := hrestart
  have hfire : Moves x (s.emit (.handle x)) q (if u.shallFire x then u.emit (.push x) else u) r := by
    split
    · exact hmoves.trans (.emit hmoves.queue fun _ => by simp)
    · exact hmoves
  refine ⟨r, hfire.queue, hfire.subset, ?_, fun e => (hfire.handlings e).trans handlings_handle,
    hperiodical⟩
  split
  · exact hevent
  · exact hevent

/-- The handlings of an event that are over or due. -/
def weight (s : Events ε π θ) (q : List ε) (e : ε) : Nat :=
  s.handlings e + if e ∈ q then 1 else 0

/-- The event is not configured, and it has no period while it is in the queue. -/
def Stopped (s : Events ε π θ) (q : List ε) (e : ε) : Prop :=
  (s.event e).configured = false ∧ (e ∈ q → (s.event e).periodical = false)

private theorem handleEvents_moves (h : s.clock.Queue q) (hret : s.handleEvents fuel = .ok t) :
    ∃ r, t.clock.Queue r ∧ r ⊆ q ∧ t.event = s.event ∧
      ∀ e, s.Stopped q e → t.weight r e ≤ s.weight q e := by
  induction fuel generalizing s q with
  | zero => exact absurd hret (by simp [Events.handleEvents])
  | succ fuel ih =>
      obtain ⟨⟨clock, found⟩, hread, hret⟩ := bind_eq_ok.mp hret
      rcases h.readFirstPending hread with ⟨rfl, hq⟩ | ⟨x, q, rfl, rfl, hq⟩
      · obtain rfl := Except.ok.inj hret
        exact ⟨q, hq, List.Subset.refl q, rfl, fun e _ => le_rfl⟩
      · obtain ⟨u, hhandle, hret⟩ := bind_eq_ok.mp hret
        have hx : x ∉ q := (List.nodup_cons.mp (Chain.nodup h)).1
        obtain ⟨k, hk, hsub, hevent, hhandlings, hperiodical⟩ :=
          handle_moves (s := { s with clock := clock }) hq hx hhandle
        obtain ⟨r, hr, hrsub, hevent', hweight⟩ := ih hk hret
        refine ⟨r, hr, fun f hf => hsub (hrsub hf), hevent'.trans hevent, fun e he => ?_⟩
        obtain ⟨hconfigured, hstopped⟩ := he
        have hk' : e ∈ k → e ∈ q := by
          intro hmem
          by_cases hxe : x = e
          · subst hxe
            rw [hperiodical (hstopped List.mem_cons_self)] at hmem
            exact hmem
          · exact (List.mem_cons.mp (hsub hmem)).resolve_left (Ne.symm hxe)
        have hless := hweight e ⟨by rw [hevent]; exact hconfigured, fun hmem => by
          rw [hevent]
          exact hstopped (List.mem_cons_of_mem x (hk' hmem))⟩
        apply hless.trans
        have hbefore : ({ s with clock := clock } : Events ε π θ).handlings e = s.handlings e := rfl
        unfold weight
        rw [hhandlings, hbefore]
        by_cases hxe : x = e
        · subst hxe
          have hnot : x ∉ k := fun hmem => hx (hk' hmem)
          simp [hnot]
        · by_cases hmem : e ∈ k
          · simp [hxe, hmem, hk' hmem]
          · simp [hxe, hmem]

/-- A trigger with a delay. -/
def Delays (e : ε) : EventCall ε π θ → Bool
  | .trigger x time => decide (x = e ∧ 0 < time)
  | _ => false

/-- What a call does to a stopped event: at most a trigger with a delay makes it due again. -/
structure KeepsStopped (e : ε) (c : EventCall ε π θ) (s : Events ε π θ) (q : List ε)
    (t : Events ε π θ) (r : List ε) : Prop where
  stopped : t.Stopped r e
  weight : t.weight r e ≤ s.weight q e + if Delays e c then 1 else 0

private theorem Moves.keepsStopped (h : Moves x s q t r) (he : e ≠ x) (hstopped : s.Stopped q e) :
    KeepsStopped e c s q t r := by
  obtain ⟨hconfigured, hperiodical⟩ := hstopped
  have hevent := h.event e he
  refine ⟨⟨by rw [hevent]; exact hconfigured, fun hmem => ?_⟩, ?_⟩
  · rw [hevent]
    exact hperiodical (h.mem he hmem)
  · have hhandlings := h.handlings e
    unfold Events.weight
    by_cases hmem : e ∈ r
    · have hmem' := h.mem he hmem
      simp only [hmem, hmem', if_true]
      omega
    · simp only [hmem, if_false]
      omega

private theorem keepsStopped_of_subset (hevent : (t.event e).configured = false)
    (hperiodical : e ∈ r → (t.event e).periodical = false) (hhandlings : t.handlings e = s.handlings e)
    (hsub : e ∈ r → e ∈ q) : KeepsStopped e c s q t r := by
  refine ⟨⟨hevent, hperiodical⟩, ?_⟩
  unfold Events.weight
  by_cases hmem : e ∈ r
  · have hmem' := hsub hmem
    simp only [hmem, hmem', if_true]
    omega
  · simp only [hmem, if_false]
    omega

private theorem perform_keeps (h : s.clock.Queue q) (hc : s.Undisturbed c)
    (hret : s.perform fuel c = .ok t) :
    ∃ r, t.clock.Queue r ∧ ∀ e, ¬ Configures e c → s.Stopped q e → KeepsStopped e c s q t r := by
  cases c with
  | setPeriodicTiming x period offset =>
      obtain ⟨r, hmoves⟩ := Moves.setPeriodicTiming h hc hret
      exact ⟨r, hmoves.queue, fun e he hstopped => hmoves.keepsStopped (Ne.symm he) hstopped⟩
  | setPeriodicSchedule x period offset schedule =>
      obtain ⟨r, hmoves⟩ := Moves.setPeriodicSchedule h hc hret
      exact ⟨r, hmoves.queue, fun e he hstopped => hmoves.keepsStopped (Ne.symm he) hstopped⟩
  | setRelativeTiming x delay =>
      obtain ⟨r, hmoves⟩ := Moves.setRelativeTiming h hret
      exact ⟨r, hmoves.queue, fun e he hstopped => hmoves.keepsStopped (Ne.symm he) hstopped⟩
  | trigger x time =>
      obtain ⟨r, hmoves, hevent, hzero⟩ := Moves.trigger h hc hret
      refine ⟨r, hmoves.queue, fun e _ hstopped => ?_⟩
      by_cases hx : e = x
      · subst hx
        obtain ⟨hconfigured, hperiodical⟩ := hstopped
        by_cases htime : time = 0
        · apply keepsStopped_of_subset
          · rw [hevent]
            exact hconfigured
          · intro hmem
            rw [hevent]
            exact hperiodical (hzero htime hmem)
          · exact hmoves.handlings e
          · exact hzero htime
        · have hpos := Nat.pos_of_ne_zero htime
          obtain ⟨_, hperiod⟩ := hc hconfigured hpos
          refine ⟨⟨by rw [hevent]; exact hconfigured, fun _ => by rw [hevent]; exact hperiod⟩, ?_⟩
          have hhandlings := hmoves.handlings e
          have hdelays : Delays e (.trigger e time : EventCall ε π θ) = true := by
            simp [Delays, hpos]
          unfold Events.weight
          rw [hdelays, if_pos rfl]
          split <;> omega
      · exact hmoves.keepsStopped hx hstopped
  | stop x =>
      obtain ⟨r, hmoves, hnot, hconfigured⟩ := Moves.stop h hret
      refine ⟨r, hmoves.queue, fun e _ hstopped => ?_⟩
      by_cases hx : e = x
      · subst hx
        exact keepsStopped_of_subset hconfigured (fun hmem => absurd hmem hnot) (hmoves.handlings e)
          fun hmem => absurd hmem hnot
      · exact hmoves.keepsStopped hx hstopped
  | reset x =>
      obtain ⟨r, hmoves, _, hsame⟩ := Moves.reset h hc hret
      refine ⟨r, hmoves.queue, fun e _ hstopped => ?_⟩
      by_cases hx : e = x
      · subst hx
        obtain ⟨rfl, rfl⟩ := hsame hstopped.1
        exact keepsStopped_of_subset hstopped.1 hstopped.2 rfl id
      · exact hmoves.keepsStopped hx hstopped
  | add schedule trigger =>
      obtain ⟨schedules, _, hret⟩ := bind_eq_ok.mp hret
      obtain rfl := Except.ok.inj hret
      exact ⟨q, h, fun e _ hstopped => keepsStopped_of_subset hstopped.1 hstopped.2 rfl id⟩
  | handleEvents =>
      obtain ⟨r, hr, hsub, hevent, hweight⟩ := handleEvents_moves h hret
      refine ⟨r, hr, fun e _ hstopped => ⟨⟨by rw [hevent]; exact hstopped.1, fun hmem => ?_⟩, ?_⟩⟩
      · rw [hevent]
        exact hstopped.2 (hsub hmem)
      · exact (hweight e hstopped).trans (Nat.le_add_right _ _)
  | advance span =>
      obtain rfl := Except.ok.inj hret
      exact ⟨q, h, fun e _ hstopped => keepsStopped_of_subset hstopped.1 hstopped.2 rfl id⟩

/-- The steps of a run in which the condition is met. -/
def Calm (s : Events ε π θ) (c : EventCall ε π θ) (t : Events ε π θ) : Prop :=
  s.Undisturbed c ∧ Step s c t

/-- The steps behind a stop: the event gets no new timing. -/
def StaysStopped (e : ε) (s : Events ε π θ) (c : EventCall ε π θ) (t : Events ε π θ) : Prop :=
  Calm s c t ∧ ¬ Configures e c

private theorem run_queue {l : List (EventCall ε π θ)} (hq : s.clock.Queue q) (h : Run Calm s l t) :
    ∃ r, t.clock.Queue r := by
  apply h.invariant (I := fun s : Events ε π θ => ∃ q, s.clock.Queue q) ⟨q, hq⟩
  intro a c b ha hstep
  obtain ⟨q, hq⟩ := ha
  obtain ⟨hc, hret⟩ := hstep
  obtain ⟨fuel, hret⟩ := hret.exists
  obtain ⟨r, hr, _⟩ := perform_keeps hq hc hret
  exact ⟨r, hr⟩

/-- Along a run behind a stop the handlings that are over or due only grow by delayed triggers. -/
theorem run_weight {l : List (EventCall ε π θ)} (hq : s.clock.Queue q) (hstopped : s.Stopped q e)
    (h : Run (StaysStopped e) s l t) :
    ∃ r, t.clock.Queue r ∧ t.Stopped r e ∧ t.weight r e ≤ s.weight q e + l.countP (Delays e) := by
  induction h with
  | start => exact ⟨q, hq, hstopped, le_rfl⟩
  | next _ hstep ih =>
      obtain ⟨r, hr, hrstopped, hweight⟩ := ih
      obtain ⟨⟨hc, hret⟩, hnot⟩ := hstep
      obtain ⟨fuel, hret⟩ := hret.exists
      obtain ⟨k, hk, hkeeps⟩ := perform_keeps hr hc hret
      have hnext := hkeeps e hnot hrstopped
      refine ⟨k, hk, hnext.stopped, ?_⟩
      have hless := hnext.weight
      rw [List.countP_append, List.countP_singleton]
      omega

/-- In every run that meets the condition a stop takes the event out of the queue. From then on, as long
as the event gets no new timing, it is queued or handled at most once for each delayed trigger: between
any two states the handlings that are over or due grow by at most the number of delayed triggers. -/
theorem run_stopped {t₀ : Nat} {offsetTime : θ → Nat} {s' : Events ε π θ}
    {l m n : List (EventCall ε π θ)} (h : Run Calm (init t₀ offsetTime) l s)
    (hstop : Step s (.stop e) s') (hfirst : Run (StaysStopped e) s' m u)
    (hlater : Run (StaysStopped e) u n t) :
    ¬ s'.InQueue e ∧ ∃ q r, u.clock.Queue q ∧ t.clock.Queue r ∧
      t.weight r e ≤ u.weight q e + n.countP (Delays e) := by
  obtain ⟨q, hq⟩ := run_queue (Clock.queue_empty t₀) h
  obtain ⟨fuel, hret⟩ := hstop.exists
  obtain ⟨k, hmoves, hnot, hconfigured⟩ := Moves.stop hq hret
  have hout : ¬ s'.InQueue e := by
    intro hin
    obtain ⟨k', hk', hmem⟩ := hin
    rw [Chain.unique hk' hmoves.queue] at hmem
    exact hnot hmem
  obtain ⟨r, hr, hstopped, _⟩ :=
    run_weight hmoves.queue ⟨hconfigured, fun hmem => absurd hmem hnot⟩ hfirst
  obtain ⟨r', hr', _, hweight⟩ := run_weight hr hstopped hlater
  exact ⟨hout, r, r', hr, hr', hweight⟩

theorem run_stopped_trigger : ∃ (s s' t : Events Nat Unit Unit) (r : List Nat),
    Run Calm (init 0 fun _ => 0) [.setRelativeTiming 0 5] s ∧ Step s (.stop 0) s' ∧
    Run (StaysStopped 0) s' [.trigger 0 3, .advance 3] t ∧ ¬ s'.InQueue 0 ∧
    t.clock.Queue r ∧ t.weight r 0 ≤ 1 := by
  let s₀ : Events Nat Unit Unit := init 0 fun _ => 0
  let s₁ := s₀.setEvent 0 ⟨true, false, 5, none⟩
  obtain ⟨clock, hret, hrep, htime, _⟩ := Clock.dequeue_returns (Clock.represents_empty 0) 0
  let s₂ : Events Nat Unit Unit := { s₁ with clock := clock }.setEvent 0 ⟨false, false, 5, none⟩
  have hempty : clock.Represents [] := hrep
  have hout : ¬ s₂.InQueue 0 := by
    intro hin
    obtain ⟨q, hq, hmem⟩ := hin
    rw [Chain.unique hq hempty.chain] at hmem
    exact List.not_mem_nil hmem
  have hself : s₂.event 0 = ⟨false, false, 5, none⟩ := Function.update_self 0 _ s₁.event
  have hlt : s₂.clock.time + 3 < 2 ^ 63 := by
    show clock.time + 3 < 2 ^ 63
    rw [show clock.time = 0 from htime]
    decide
  obtain ⟨s₃, r, htrigger, _⟩ :=
    trigger_delayed (s := s₂) 3 hempty List.not_mem_nil (by rw [hself]) (by decide) hlt
  let s₄ : Events Nat Unit Unit := { s₃ with clock := { s₃.clock with time := s₃.clock.time + 3 } }
  have h₁ : Calm s₀ (.setRelativeTiming 0 5) s₁ := ⟨trivial, returns_of_add 0 fun fuel => rfl⟩
  have h₂ : Returns (fun fuel => s₁.stop fuel 0) s₂ := by
    refine Returns.bind (a := { s₁ with clock := clock }) ?_ ?_
    · exact hret.bind (returns_ok _)
    · exact returns_of_add 0 fun fuel => rfl
  have h₃ : StaysStopped 0 s₂ (.trigger 0 3) s₃ :=
    ⟨⟨fun _ _ => ⟨Or.inr hout, by rw [hself]⟩, htrigger⟩, id⟩
  have h₄ : StaysStopped 0 s₃ (.advance 3) s₄ := ⟨⟨trivial, returns_ok _⟩, id⟩
  have hrun := (Run.start.next h₃).next h₄
  obtain ⟨hnot, q, r', hq, hr', hweight⟩ := run_stopped (Run.start.next h₁) h₂ Run.start hrun
  have hnil : q = [] := Chain.unique hq hempty.chain
  refine ⟨s₁, s₂, s₄, r', Run.start.next h₁, h₂, hrun, hnot, hr', ?_⟩
  rw [hnil] at hweight
  exact hweight

/-- The period that `stop` leaves behind starts the triggered event again: it is handled twice. -/
theorem stop_leaves_period : ∃ s s' t : Events Nat Unit Unit,
    Run Step (init 0 fun _ => 0) [.setPeriodicTiming 0 10 5] s ∧ Step s (.stop 0) s' ∧
    Run Step s' [.trigger 0 3, .advance 13, .handleEvents] t ∧
    s'.handlings 0 = 0 ∧ t.handlings 0 = 2 := by
  let s₀ : Events Nat Unit Unit := init 0 fun _ => 0
  let plan : Nat → Option Plan := Function.update (fun _ => none) 0 (some (.periodic 0 10 3))
  obtain ⟨s₁, q₁, hret₁, hs₁, htime₁⟩ := Planned.setPeriodicTiming_onTime (e := 0) 10 5
    (Planned.onTime_init 0 fun _ => 0 : Planned.OnTime _ s₀ []) (by decide) rfl
    (by decide) (by decide)
  have hzero₁ : s₁.clock.time = 0 := htime₁
  obtain ⟨_, hperiodical, hperiod, _, _, hover⟩ := hs₁.planned 0 _ rfl
  have hnever : s₁.handlings 0 = 0 := by
    by_contra hne
    have hfirst := hover 0 (Nat.pos_of_ne_zero hne)
    rw [hzero₁] at hfirst
    exact absurd hfirst (by decide)
  obtain ⟨clock, hret₂, hrep₂, htime₂, _⟩ := Clock.dequeue_returns hs₁.represents 0
  let s₂ := { s₁ with clock := clock }.setEvent 0
    { s₁.event 0 with configured := false, periodicSchedule := none }
  have hzero₂ : s₂.clock.time = 0 := htime₂.trans hzero₁
  have hself₂ : s₂.event 0 = ⟨false, true, 10, none⟩ := by
    simp [s₂, Events.setEvent, hperiodical, hperiod]
  have hother₂ : ∀ e, e ≠ 0 → s₂.event e = .init := by
    intro e he
    rw [show s₂.event e = s₁.event e from Function.update_of_ne he _ _]
    exact (hs₁.unplanned e (Function.update_of_ne he _ _)).1
  have hout : 0 ∉ q₁.erase 0 := hs₁.represents.nodup.not_mem_erase
  obtain ⟨s₃, q₃, hret₃, hevent₃, hrep₃, hperm, htime₃, hact₃, hhandlings₃⟩ :=
    trigger_delayed (s := s₂) 3 hrep₂ hout (by rw [hself₂]) (by decide)
      (by rw [hzero₂]; decide)
  have hzero₃ : s₃.clock.time = 0 := htime₃.trans hzero₂
  -- the event follows a plan that starts with the delay of the trigger
  have hs₃ : Planned.OnTime plan s₃ q₃ := by
    refine ⟨hrep₃, ?_, ?_, ?_⟩
    · intro e
      rw [hevent₃]
      by_cases he : e = 0
      · rw [he, hself₂]
      · rw [hother₂ e he]
        rfl
    · intro e hnone
      have he : e ≠ 0 := fun heq => by simp [heq, plan] at hnone
      obtain ⟨_, hq₁, hhandlings₁⟩ := hs₁.unplanned e (Function.update_of_ne he _ _)
      refine ⟨by rw [hevent₃, hother₂ e he], ?_, (hhandlings₃ e).trans hhandlings₁⟩
      intro hmem
      rcases List.mem_cons.mp (hperm.subset hmem) with h | h
      · exact he h
      · exact hq₁ (List.mem_of_mem_erase h)
    · intro e p hplan
      by_cases he : e = 0
      · subst he
        obtain rfl : Plan.periodic 0 10 3 = p := Option.some.inj hplan
        have hnone : s₃.handlings 0 = 0 := (hhandlings₃ 0).trans hnever
        unfold Planned.Follows
        rw [hevent₃, hself₂, hnone, hact₃, Function.update_self, hzero₂]
        refine ⟨by decide, rfl, rfl, hperm.mem_iff.mpr List.mem_cons_self, by decide, ?_⟩
        exact fun k hk => absurd hk (Nat.not_lt_zero k)
      · rw [show plan e = none from Function.update_of_ne he _ _] at hplan
        cases hplan
  let s₄ : Events Nat Unit Unit := { s₃ with clock := { s₃.clock with time := s₃.clock.time + 13 } }
  have htime₄ : s₄.clock.time = 13 := by
    show s₃.clock.time + 13 = 13
    rw [hzero₃]
  obtain ⟨s₅, q₅, hret₅, _, htime₅, hsettled⟩ :=
    Planned.handleEvents_onTime (hs₃.advance 13) (by rw [show _ = 13 from htime₄]; decide) (by
      intro e p hplan
      rw [show _ = 13 from htime₄]
      by_cases he : e = 0
      · subst he
        obtain rfl : Plan.periodic 0 10 3 = p := Option.some.inj hplan
        decide
      · rw [show plan e = none from Function.update_of_ne he _ _] at hplan
        cases hplan)
  have h₁ : Step s₀ (.setPeriodicTiming 0 10 5) s₁ := hret₁
  have h₂ : Returns (fun fuel => s₁.stop fuel 0) s₂ := by
    refine Returns.bind ?_ (returns_ok _)
    exact hret₂.bind (returns_ok _)
  have h₃ : Step s₂ (.trigger 0 3) s₃ := hret₃
  have h₄ : Step s₃ (.advance 13) s₄ := returns_ok _
  refine ⟨s₁, s₂, s₅, Run.start.next h₁, h₂, ((Run.start.next h₃).next h₄).next hret₅, hnever, ?_⟩
  rw [hsettled.handlings 0 _ rfl, htime₅, htime₄]
  rfl

end Events

end TaskingFramework
