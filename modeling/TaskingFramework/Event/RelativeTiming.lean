import TaskingFramework.Event.History

/-!
# Relative timings

A reset of an event with a relative timing starts it. The event is handled once, by the first
handling of the pending events at its time or later. A schedule that was set before is left in place
by the new timing: such an event is handled but never pushed.
-/

set_option linter.unusedSectionVars false

namespace TaskingFramework

open Foundation

namespace Events

open Clock

variable {ε π θ : Type} [DecidableEq ε] [DecidableEq π] [DecidableEq θ]
  {s t u : Events ε π θ} {q r : List ε} {e : ε} {c : EventCall ε π θ} {v : EventImpl π}
  {due h n : Nat}

/-- The started event waits for its time; `h` and `n` count its handlings and notifications until
now. -/
structure Waits (e : ε) (v : EventImpl π) (due h n : Nat) (s : Events ε π θ) (q : List ε) :
    Prop where
  event : s.event e = v
  mem : e ∈ q
  due : s.clock.nextActivation_ms e = due
  handlings : s.handlings e = h
  notifications : s.notifications e = n

/-- The event was handled once, and was pushed if no schedule is set for it. -/
structure Served (e : ε) (v : EventImpl π) (due h n : Nat) (s : Events ε π θ) (q : List ε) :
    Prop where
  event : s.event e = v
  out : e ∉ q
  due : due ≤ s.clock.time
  handlings : s.handlings e = h + 1
  notifications : s.notifications e = n + if v.periodicSchedule = none then 1 else 0

private theorem ignores_waits : Ignores (π := π) (θ := θ) e (Waits e v due h n) where
  touches hx hwaits htouches := by
    have he := hx.symm
    refine ⟨(htouches.event e he).trans hwaits.event, (htouches.mem e he).mpr hwaits.mem, ?_, ?_, ?_⟩
    · exact (htouches.times e he).trans hwaits.due
    · exact (htouches.handlings e he).trans hwaits.handlings
    · exact (htouches.notifications e he).trans hwaits.notifications
  schedules hwaits _ := { hwaits with }
  advance hwaits _ := { hwaits with }

private theorem ignores_served : Ignores (π := π) (θ := θ) e (Served e v due h n) where
  touches hx hserved htouches := by
    have he := hx.symm
    refine ⟨(htouches.event e he).trans hserved.event, ?_, ?_, ?_, ?_⟩
    · exact fun hmem => hserved.out ((htouches.mem e he).mp hmem)
    · exact htouches.time ▸ hserved.due
    · exact (htouches.handlings e he).trans hserved.handlings
    · exact (htouches.notifications e he).trans hserved.notifications
  schedules hserved _ := { hserved with }
  advance hserved span := { hserved with due := le_trans hserved.due (Nat.le_add_right _ span) }

private theorem handle_relative (hperiodical : (s.event e).periodical = false) :
    ∃ t, Returns (fun fuel => s.handle fuel e) t ∧ t.event = s.event ∧ t.clock = s.clock ∧
      t.handlings e = s.handlings e + 1 ∧
      t.notifications e = s.notifications e + if (s.event e).periodicSchedule = none then 1 else 0 := by
  let s₁ := s.emit (.handle e)
  have hnotifications : s₁.notifications e = s.notifications e := notifications_emit _
  have hhandlings : s₁.handlings e = s.handlings e + 1 := by
    rw [handlings_emit, if_pos rfl]
  have hreturns : Returns (fun fuel => s.handle fuel e)
      (if s₁.shallFire e then s₁.emit (.push e) else s₁) := by
    simp only [Events.handle, emit_event, hperiodical, Bool.false_eq_true, if_false, pure_eq_ok,
      ok_bind]
    exact returns_ok _
  by_cases hschedule : (s.event e).periodicSchedule = none
  · have hfire : s₁.shallFire e = true := by
      rw [shallFire, emit_event, hschedule]
      rfl
    rw [if_pos hfire] at hreturns
    refine ⟨_, hreturns, rfl, rfl, ?_, ?_⟩
    · rw [handlings_emit, hhandlings]
      rfl
    · rw [notifications_emit, hnotifications, if_pos rfl, if_pos hschedule]
  · have hmuted : ¬ s₁.shallFire e = true := by
      rw [shallFire, emit_event, Option.isNone_iff_eq_none]
      exact hschedule
    rw [if_neg hmuted] at hreturns
    refine ⟨_, hreturns, rfl, rfl, hhandlings, ?_⟩
    rw [hnotifications, if_neg hschedule, Nat.add_zero]

private theorem preserves_served : Preserves (π := π) (θ := θ) e (Served e v due h n) :=
  { ignores_served with handle := fun hserved => absurd List.mem_cons_self hserved.out }

private theorem preserves_handled (hperiodical : v.periodical = false) :
    Preserves (π := π) (θ := θ) e fun s q => Waits e v due h n s q ∨ Served e v due h n s q where
  touches hx hor htouches :=
    hor.imp (ignores_waits.touches hx · htouches) (ignores_served.touches hx · htouches)
  schedules hor schedules :=
    hor.imp (ignores_waits.schedules · schedules) (ignores_served.schedules · schedules)
  advance hor span := hor.imp (ignores_waits.advance · span) (ignores_served.advance · span)
  handle {s q clock u} hor hout hnow hdue hclock htime hact hret hbelow := by
    have hwaits := hor.resolve_right fun hserved => hserved.out List.mem_cons_self
    let s₁ : Events ε π θ := { s with clock := clock }
    have hevent : s₁.event e = v := hwaits.event
    obtain ⟨t, hreturns, heventt, hclockt, hhandlings, hnotifications⟩ :=
      handle_relative (s := s₁) (hevent ▸ hperiodical)
    obtain rfl := hret.unique hreturns
    have hserved : Served e v due h n u q := by
      refine ⟨heventt ▸ hwaits.event, hout, ?_, ?_, ?_⟩
      · rw [hclockt, htime, ← hwaits.due]
        exact hdue
      · rw [hhandlings, ← hwaits.handlings]
        rfl
      · rw [hnotifications, hevent, ← hwaits.notifications]
        rfl
    exact ⟨q, Or.inr hserved, hclockt ▸ hclock, hclockt ▸ htime⟩

/-- The reset of an event with a relative timing starts it for the time behind the delay. -/
theorem reset_returns {sch : Option π} {delay : Nat} (hrep : s.clock.Represents q)
    (hevent : s.event e = ⟨true, false, delay, sch⟩) (hstart : s.Restartable e) (hdelay : 0 < delay)
    (hlt : s.clock.time + delay < 2 ^ 63) :
    ∃ t r, Step s (.reset e) t ∧ t.event = s.event ∧ t.clock.Represents r ∧
      r.Perm (e :: q.erase e) ∧ t.clock.time = s.clock.time ∧ t.clock.nextActivation_ms =
        Function.update s.clock.nextActivation_ms e (s.clock.time + delay) ∧
      t.handlings e = s.handlings e ∧ t.notifications e = s.notifications e := by
  obtain ⟨clock, hdequeue, hclock, htime, hact⟩ := dequeueQueued_represents hrep (hstart.marked hrep)
  have hout : e ∉ q.erase e := hrep.nodup.not_mem_erase
  rw [← htime] at hlt
  obtain ⟨clock', wake, r, hret, hclock', hperm, htime', hact'⟩ := hclock.startAt hout hlt (by omega)
  let s₁ : Events ε π θ := { s with clock := clock }
  let s₂ := { s₁ with clock := clock' }.emit (.wake wake)
  have hstarted : Returns (fun fuel => s₁.startIn fuel e (s₁.event e).period_ms) s₂ := by
    have hperiod : (s₁.event e).period_ms = delay := congrArg EventImpl.period_ms hevent
    rw [hperiod]
    exact (hret.congr fun fuel => (startIn_eq fuel hdelay.ne' (by omega)).symm).bind (returns_ok _)
  refine ⟨s₂, r, ?_, rfl, hclock', hperm, htime'.trans htime, ?_, handlings_emit _,
    notifications_emit _⟩
  · have hcall : Returns (fun fuel => s.dequeueQueued fuel e >>= fun s =>
        s.startIn fuel e (s.event e).period_ms) s₂ := hdequeue.bind hstarted
    apply hcall.congr
    intro fuel
    simp only [perform, reset, hevent, Bool.not_false, Bool.and_self, if_true]
  · rw [← hact, ← htime]
    exact hact'

private theorem handleEvents_served (hwaits : Waits e v due h n s q)
    (hperiodical : v.periodical = false) (hq : s.Orderly q) (hstep : Ordinary s .handleEvents t) :
    ∃ r, t.Orderly r ∧
      (if due ≤ s.clock.time then Served e v due h n t r else Waits e v due h n t r) := by
  obtain ⟨fuel, hret⟩ := hstep.step.exists
  obtain ⟨r, hor, hrep, htime, hnone⟩ :=
    (preserves_handled hperiodical).handleEvents (Or.inl hwaits) hq.represents hret hstep.below
  refine ⟨r, ⟨hrep, lt_of_eq_of_lt htime hq.now⟩, ?_⟩
  split
  · rename_i hcome
    refine hor.resolve_left fun hwaits => ?_
    have hlater := hnone e hwaits.mem
    rw [hwaits.due, htime] at hlater
    exact absurd hcome (not_le_of_gt hlater)
  · rename_i hearly
    exact hor.resolve_right fun hserved => hearly (htime ▸ hserved.due)

/-- No handling of the pending events begins at the time `due` or later. -/
def Early (s : Events ε π θ) (due : Nat) (l : List (EventCall ε π θ)) : Prop :=
  Along Step s (fun u c => c = .handleEvents → u.clock.time < due) l

/-- Behind the start the event waits, and is served by the first handling of the pending events at
its time or later. -/
theorem run_served (hwaits : Waits e v due h n s q) (hperiodical : v.periodical = false)
    (hq : s.Orderly q) {l : List (EventCall ε π θ)} (hrun : Run (Leaves e) s l t) :
    ∃ r, t.Orderly r ∧ ((s.Early due l ∧ Waits e v due h n t r) ∨
      (¬ s.Early due l ∧ Served e v due h n t r)) := by
  induction hrun with
  | start => exact ⟨q, hq, Or.inl ⟨along_nil, hwaits⟩⟩
  | @next l a c b hrun hstep ih =>
      obtain ⟨r, hr, hcases⟩ := ih
      have hsteps : Run Step s l a := hrun.mono fun _ _ _ hstep => hstep.step
      have hearly : s.Early due (l ++ [c]) ↔
          s.Early due l ∧ (c = .handleEvents → a.clock.time < due) := by
        refine along_snoc.trans (and_congr_right fun _ => ?_)
        constructor
        · exact fun hall => hall a hsteps
        · exact fun hlast u hu => run_unique hsteps hu ▸ hlast
      rcases hcases with ⟨hbefore, hwaits⟩ | ⟨hbefore, hserved⟩
      · by_cases hc : c = .handleEvents
        · subst hc
          obtain ⟨k, hk, hserved⟩ := handleEvents_served hwaits hperiodical hr hstep.toOrdinary
          refine ⟨k, hk, ?_⟩
          split at hserved
          · rename_i hcome
            exact Or.inr ⟨fun hall => absurd ((hearly.mp hall).2 rfl) (not_lt_of_ge hcome), hserved⟩
          · rename_i hwait
            exact Or.inl ⟨hearly.mpr ⟨hbefore, fun _ => lt_of_not_ge hwait⟩, hserved⟩
        · obtain ⟨k, hwaits, hk⟩ := ignores_waits.step hwaits hr hstep hc
          exact ⟨k, hk, Or.inl ⟨hearly.mpr ⟨hbefore, fun heq => absurd heq hc⟩, hwaits⟩⟩
      · obtain ⟨k, hserved, hk⟩ := preserves_served.step hserved hr hstep
        exact ⟨k, hk, Or.inr ⟨fun hall => hbefore (hearly.mp hall).1, hserved⟩⟩

theorem restartable_outside (hrep : s.clock.Represents q) (he : e ∉ q) : s.Restartable e := by
  refine Or.inr fun hin => ?_
  obtain ⟨r, hr, hmem⟩ := hin
  rw [hr.unique hrep.chain] at hmem
  exact he hmem

private theorem Round.unique {s t u : Events ε π θ} (h : Round s t) (h' : Round s u) : t = u := by
  obtain ⟨clock, x, hread, hhandle⟩ := h
  obtain ⟨clock', x', hread', hhandle'⟩ := h'
  obtain ⟨rfl, hx⟩ := Prod.mk.inj (hread.unique hread')
  obtain rfl := Option.some.inj hx
  exact hhandle.unique hhandle'

end Events

end TaskingFramework
