import TaskingFramework.Assembly.Timely
import TaskingFramework.Task.AtRest

/-!
# The assembly comes to rest

While the time stands still the handling of the due events and the execution of the tasks behind
them end: every event has only the handlings left that its plan has up to now, each of them notifies
a fixed number of inputs, and each notification causes a bounded number of steps.
-/

set_option linter.unusedSectionVars false

namespace TaskingFramework

open Foundation

section Weights

variable {η τ σ ε γ : Type}

/-- The step of a notification, and the steps that it may cause. -/
def Layout.notifySteps (L : Layout τ σ ε γ) (len : τ → Nat) (t : τ) : Nat := 2 * L.taskSteps len t + 3

/-- The steps of a thread that has these inputs to notify, up to the end of its push. -/
def Layout.pushSteps (L : Layout τ σ ε γ) (len : τ → Nat) (inputs : List (τ × Nat)) : Nat :=
  2 + (inputs.map fun x => L.notifySteps len x.1).sum

/-- The reading of an event lowers the weight of its thread. -/
def HandlerPc.steps (L : Layout τ σ ε γ) (len : τ → Nat) : HandlerPc η τ → Nat
  | .idle => 1
  | .handling _ => 0
  | .pushing inputs => L.pushSteps len inputs

private theorem missed_notify_le (x : Input) :
    x.notify.1.missedNotifications ≤ x.missedNotifications + 1 := by
  unfold Input.notify
  split
  · exact Nat.mod_le _ _
  · exact Nat.le_add_right _ _

end Weights

namespace System

variable {τ σ ε γ ν : Type} [DecidableEq τ] [DecidableEq σ] [DecidableEq ε] [DecidableEq γ]
  [DecidableEq ν]
  [Fintype τ] [Fintype σ] [Fintype ε] [Fintype ν] {L : Layout τ σ ε γ} {s s' : System τ σ ε γ ν}
  {v : ν} {t : τ} {i : Nat}

private theorem work_notify_le (len : τ → Nat) (hs : s.Step L (.notify v t i) s') :
    s'.work L len < s.work L len + L.notifySteps len t := by
  cases step_acts hs with
  | @notify _ _ _ x hv hx =>
      have hload := work_setNotifier (L := L) (s := s.setTask t ((s.task t).setInput i x.notify.1))
        (c := v) len
        (if x.notify.2 then .counted t i else .idle)
      have htask := work_setTask (L := L) (s := s) (t := t) len ((s.task t).setInput i x.notify.1)
      have hsum := sum_map_set (w := Input.missedNotifications) (y := x.notify.1) hx
      have hmissed := missed_notify_le x
      have hle : ((s.task t).setInput i x.notify.1).steps (L.taskSteps len t) ≤
          (s.task t).steps (L.taskSteps len t) + L.taskSteps len t := by
        show (if (s.task t).state = .pending then L.taskSteps len t else 0) + L.taskSteps len t *
          (((s.task t).inputs.inputs.set i x.notify.1).map Input.missedNotifications).sum ≤ _
        have hmul := Nat.mul_le_mul_left (L.taskSteps len t) (show
          (((s.task t).inputs.inputs.set i x.notify.1).map Input.missedNotifications).sum ≤
            ((s.task t).inputs.inputs.map Input.missedNotifications).sum + 1 by omega)
        rw [Nat.mul_add, Nat.mul_one] at hmul
        unfold TaskImpl.steps
        omega
      have hpc : (if x.notify.2 then (.counted t i : NotifierPc τ) else .idle).steps L len ≤
          L.taskSteps len t + 2 := by
        split
        · exact le_rfl
        · exact Nat.zero_le _
      have hidle : ((s.setTask t ((s.task t).setInput i x.notify.1)).notifier v).steps L len = 0 := by
        rw [show (s.setTask t ((s.task t).setInput i x.notify.1)).notifier v = .idle from hv]
        rfl
      unfold Layout.notifySteps
      omega

end System

namespace Assembly

open Planned

variable {η π θ τ σ ε γ ν : Type} [DecidableEq η] [DecidableEq π] [DecidableEq θ] [DecidableEq τ]
  [DecidableEq σ] [DecidableEq ε] [DecidableEq γ] [DecidableEq ν]
  {L : Layout τ σ ε γ} {associated : η → List (τ × Nat)} {s s' : Assembly η π θ τ σ ε γ ν}
  {action : AssemblyAction η τ ε ν} {acts later : List (AssemblyAction η τ ε ν)} {q r : List η}
  {e : η} {v : ν} {len : τ → Nat} {inputs : τ → InputArray}

/-- Time stands still, no event is configured, and only the handling of events notifies inputs. -/
def InternalStep (L : Layout τ σ ε γ) (associated : η → List (τ × Nat)) (s : Assembly η π θ τ σ ε γ ν)
    (action : AssemblyAction η τ ε ν) (s' : Assembly η π θ τ σ ε γ ν) : Prop :=
  Step L associated s action s' ∧ match action with
    | .configure _ | .advance _ => False
    | .act a => ∀ v t i, a ≠ .notify v t i
    | .readFirstPending _ _ | .handle _ _ | .notify _ _ _ | .pushed _ => True

/-- The handlings that the plan of the event has left. -/
def remaining (s : Assembly η π θ τ σ ε γ ν) (e : η) : Nat :=
  match s.planned.plan e with
  | some p => p.handlings s.time - s.planned.events.handlings e
  | none => 0

variable [Fintype η] [Fintype τ] [Fintype σ] [Fintype ε] [Fintype ν]

/-- An upper bound of the steps that are left, with these numbers of inputs. -/
def work (L : Layout τ σ ε γ) (associated : η → List (τ × Nat)) (len : τ → Nat)
    (s : Assembly η π θ τ σ ε γ ν) :
    Nat :=
  ∑ e, s.remaining e * (L.pushSteps len (associated e) + 1) + ∑ v, (s.handler v).steps L len +
    s.system.work L len

private theorem work_setHandler (associated : η → List (τ × Nat)) (len : τ → Nat) (pc : HandlerPc η τ) :
    (s.setHandler v pc).work L associated len + (s.handler v).steps L len =
      s.work L associated len + pc.steps L len := by
  have hsum := sum_update (fun _ pc => HandlerPc.steps L len pc) s.handler v pc
  have hremaining : (s.setHandler v pc).remaining = s.remaining := rfl
  simp only [work, hremaining]
  simp only [setHandler]
  omega

private theorem Timely.handlings_lt (h : s.Timely q r) (hv : s.handler v = .handling e) {p : Plan}
    (hplan : s.planned.plan e = some p) : s.planned.events.handlings e < p.handlings s.time := by
  have hfollows := h.planned e p hplan
  have hdue := h.due v e hv
  cases p with
  | periodic now period offset =>
      obtain ⟨hp, _, _, _, hnext, _⟩ := hfollows
      exact (lt_handlings hp).mpr (hnext ▸ hdue)
  | once now delay =>
      obtain ⟨_, hcases⟩ := hfollows
      have her : e ∈ r := (h.mem e).mpr (Or.inr ⟨v, hv⟩)
      obtain ⟨hzero, _, hstart⟩ := hcases.resolve_right fun hover => hover.2.1 her
      rw [hzero]
      have hle : now + delay ≤ s.time := hstart ▸ hdue
      rw [Plan.handlings, if_neg (Nat.not_lt.mpr hle)]
      exact Nat.zero_lt_one

private theorem remaining_handle {events : Events η π θ} (htime : events.clock.time = s.time)
    (hhandlings : ∀ f, events.handlings f = s.planned.events.handlings f + if e = f then 1 else 0) :
    (s.setEvents events).remaining = Function.update s.remaining e (s.remaining e - 1) := by
  have hsame : (s.setEvents events).time = s.time := htime
  have hdown : ∀ f, (s.setEvents events).remaining f = s.remaining f - if e = f then 1 else 0 := by
    intro f
    unfold remaining
    rw [hsame]
    show (match s.planned.plan f with
      | some p => p.handlings s.time - events.handlings f
      | none => 0) = _
    rw [hhandlings f]
    cases s.planned.plan f with
    | none => exact (Nat.zero_sub _).symm
    | some p => exact Nat.sub_add_eq _ _ _
  funext f
  rw [hdown f]
  by_cases hf : f = e
  · rw [hf, Function.update_self, if_pos rfl]
  · rw [Function.update_of_ne hf, if_neg (Ne.symm hf), Nat.sub_zero]

private theorem work_handle {events : Events η π θ} (associated : η → List (τ × Nat)) (len : τ → Nat)
    (h : s.Timely q r) (hv : s.handler v = .handling e)
    (htime : events.clock.time = s.time)
    (hhandlings : ∀ f, events.handlings f = s.planned.events.handlings f + if e = f then 1 else 0) :
    (s.setEvents events).work L associated len + (L.pushSteps len (associated e) + 1) =
        s.work L associated len := by
  have hpos : 0 < s.remaining e := by
    unfold remaining
    cases hplan : s.planned.plan e with
    | none => exact absurd ((h.mem e).mpr (Or.inr ⟨v, hv⟩)) (h.unplanned e hplan).2.1
    | some p => exact Nat.sub_pos_of_lt (h.handlings_lt hv hplan)
  have hsum := sum_update (fun f n => n * (L.pushSteps len (associated f) + 1)) s.remaining e
    (s.remaining e - 1)
  have hone : s.remaining e * (L.pushSteps len (associated e) + 1) =
      (s.remaining e - 1) * (L.pushSteps len (associated e) + 1) +
      (L.pushSteps len (associated e) + 1) := by
    obtain ⟨n, hn⟩ := Nat.exists_eq_add_of_lt hpos
    rw [hn, Nat.zero_add, Nat.add_sub_cancel, Nat.add_mul, Nat.one_mul]
  have hleft : (s.setEvents events).handler = s.handler := rfl
  have hsystem : (s.setEvents events).system = s.system := rfl
  simp only [work, remaining_handle htime hhandlings, hleft, hsystem]
  omega

/-- What holds in every run: the events are on time, the threads behave, and the inputs in their
hands exist. -/
structure Running (L : Layout τ σ ε γ) (inputs : τ → InputArray) (s : Assembly η π θ τ σ ε γ ν) :
    Prop where
  timely : ∃ q r, s.Timely q r
  orderly : s.system.Orderly L inputs
  pushing : ∀ v l, s.handler v = .pushing l → ∀ x ∈ l, x.2 < (inputs x.1).inputs.length

private theorem work_lt (h : s.Running L inputs) (hbunched : ∀ t, (inputs t).Bunched)
    (hstep : InternalStep L associated s action s') :
    s'.work L associated (fun t => (inputs t).inputs.length) <
      s.work L associated fun t => (inputs t).inputs.length := by
  obtain ⟨q, r, htimely⟩ := h.timely
  obtain ⟨hstep, hinternal⟩ := hstep
  cases hstep with
  | configure => exact hinternal.elim
  | advance => exact hinternal.elim
  | @readFirstPending v e clock hv _ hret =>
      obtain ⟨_, htime⟩ := htimely.read hv hret
      have hwork := work_setHandler (L := L) (s := s.setClock clock) (v := v) associated
        (fun t => (inputs t).inputs.length) (.handling e)
      have hsame : (s.setClock clock).remaining = s.remaining := by
        funext f
        show (match s.planned.plan f with
          | some p => p.handlings clock.time - s.planned.events.handlings f
          | none => 0) = _
        rw [htime]
        rfl
      have hclock : (s.setClock clock).work L associated (fun t => (inputs t).inputs.length) =
          s.work L associated fun t => (inputs t).inputs.length := by
        simp only [work, hsame]
        rfl
      rw [show (s.setClock clock).handler v = .idle from hv] at hwork
      simp only [HandlerPc.steps] at hwork
      omega
  | @handle v e events hv hnext hret =>
      obtain ⟨_, hfire, htime, hhandlings⟩ := htimely.handle associated hv hnext hret
      have hwork := work_setHandler (L := L) (s := s.setEvents events) (v := v) associated
        (fun t => (inputs t).inputs.length) (.pushing (associated e))
      have hhandle := work_handle (L := L) associated
        (fun t => (inputs t).inputs.length) htimely hv htime hhandlings
      rw [show (s.setEvents events).handler v = .handling e from hv] at hwork
      rw [if_pos hfire]
      simp only [HandlerPc.steps] at hwork
      omega
  | @notify v t i rest system hv hsystem =>
      have hwork := work_setHandler (L := L) (s := { s with system := system }) (v := v) associated
        (fun t => (inputs t).inputs.length) (.pushing rest)
      have hnotify := System.work_notify_le (fun t => (inputs t).inputs.length) hsystem
      have hsplit : ({ s with system := system } : Assembly η π θ τ σ ε γ ν).work L associated
            (fun t => (inputs t).inputs.length) + s.system.work L (fun t => (inputs t).inputs.length) =
          s.work L associated (fun t => (inputs t).inputs.length) +
            system.work L fun t => (inputs t).inputs.length := by
        have hsame : ({ s with system := system } : Assembly η π θ τ σ ε γ ν).remaining =
          s.remaining := rfl
        simp only [work, hsame]
        omega
      rw [show ({ s with system := system } : Assembly η π θ τ σ ε γ ν).handler v = _ from hv] at hwork
      simp only [HandlerPc.steps, Layout.pushSteps, List.map_cons, List.sum_cons] at hwork
      omega
  | @pushed v hv _ =>
      have hwork := work_setHandler (L := L) (s := s)
        (v := v) associated (fun t => (inputs t).inputs.length) .idle
      rw [hv] at hwork
      simp only [HandlerPc.steps, Layout.pushSteps, List.map_nil, List.sum_nil] at hwork
      omega
  | @act a system _ hsystem =>
      have hlt := System.work_lt (h.orderly.configured.sized hbunched) ⟨hsystem, hinternal⟩
      have hsame : ({ s with system := system } : Assembly η π θ τ σ ε γ ν).remaining =
        s.remaining := rfl
      simp only [work, hsame]
      omega

private theorem Running.step (h : s.Running L inputs)
    (hexists : ∀ e, ∀ x ∈ associated e, x.2 < (inputs x.1).inputs.length)
    (hstep : Step L associated s action s') : s'.Running L inputs := by
  obtain ⟨q, r, htimely⟩ := h.timely
  refine ⟨(htimely.step hstep).1, ?_, ?_⟩
  · cases hstep with
    | configure | advance | readFirstPending | handle | pushed => exact h.orderly
    | notify _ hsystem => exact h.orderly.step hsystem
    | act _ hsystem => exact h.orderly.step hsystem
  · intro w l hw x hx
    have hother : ∀ {v : ν} {pc : HandlerPc η τ},
      (∀ l, pc = .pushing l → ∀ x ∈ l, x.2 < (inputs x.1).inputs.length) →
        Function.update s.handler v pc w = .pushing l → x.2 < (inputs x.1).inputs.length := by
      intro v pc hpc hupdate
      by_cases hwv : w = v
      · rw [hwv, Function.update_self] at hupdate
        exact hpc l hupdate x hx
      · rw [Function.update_of_ne hwv] at hupdate
        exact h.pushing w l hupdate x hx
    cases hstep with
    | configure | advance | act => exact h.pushing w l hw x hx
    | readFirstPending => exact hother (by simp) hw
    | @handle v e events =>
        refine hother ?_ hw
        intro l hl y hy
        obtain rfl := HandlerPc.pushing.inj hl
        split at hy
        · exact hexists e y hy
        · exact absurd hy List.not_mem_nil
    | @notify v t i rest _ hv _ =>
        refine hother ?_ hw
        intro l hl y hy
        obtain rfl := HandlerPc.pushing.inj hl
        exact h.pushing v _ hv y (List.mem_cons_of_mem _ hy)
    | pushed => exact hother (by simp) hw

private theorem Timely.exists_handle (h : s.Timely q r) (hv : s.handler v = .handling e)
    (hfollowing : ∀ e p, s.planned.plan e = some p → p.following s.time < 2 ^ 63) :
    ((s.planned.events.event e).periodical = true →
      s.planned.events.clock.nextActivation_ms e + (s.planned.events.event e).period_ms < 2 ^ 63) ∧
    ∃ events, Returns (fun fuel => s.planned.events.handle fuel e) events := by
  have her : e ∈ r := (h.mem e).mpr (Or.inr ⟨v, hv⟩)
  cases hplan : s.planned.plan e with
  | none => exact absurd her (h.unplanned e hplan).2.1
  | some p =>
      have hfollows := h.planned e p hplan
      cases p with
      | periodic now period offset =>
          have hnext := hfollows.restart_lt (h.due v e hv) (hfollowing e _ hplan)
          obtain ⟨events, _, hret, _⟩ := Events.handle_periodical h.represents (h.notQueued v e hv)
            (h.unscheduled e) hfollows.2.1 h.now_lt hnext
          exact ⟨fun _ => hnext, events, hret⟩
      | once now delay =>
          obtain ⟨hperiodical, _⟩ := hfollows
          obtain ⟨events, hret, _⟩ := Events.handle_once (h.unscheduled e) hperiodical
          exact ⟨fun htrue => absurd (hperiodical.symm.trans htrue) (by decide), events, hret⟩

private theorem Timely.exists_read (h : s.Timely q r)
    (hpending : s.planned.events.clock.isPending = true) :
    ∃ clock e, Returns (fun fuel => s.planned.events.clock.readFirstPending fuel) (clock, some e) := by
  have hhead : s.planned.events.clock.queueHead = q.head? := Chain.head h.represents.chain
  cases q with
  | nil => simp [Clock.isPending, hhead] at hpending
  | cons e q =>
      have hdue : s.planned.events.clock.nextActivation_ms e ≤ s.planned.events.clock.time := by
        simpa [Clock.isPending, hhead] using hpending
      obtain ⟨clock, hret, _⟩ := Clock.readFirstPending_due h.represents hdue
      exact ⟨clock, e, hret⟩

private theorem Running.atRest [Nonempty ν] (h : s.Running L inputs)
    (hfollowing : ∀ e p, s.planned.plan e = some p → p.following s.time < 2 ^ 63)
    (hrest : AtRest (InternalStep L associated) s) :
    (∀ v, s.handler v = .idle) ∧ s.planned.events.clock.isPending = false ∧
    (∀ e, s.system.executor e = .idle) ∧
      (∀ v, s.system.notifier v = .idle) ∧ ∀ e, s.system.runQueue (L.scheduler e) = [] := by
  obtain ⟨q, r, htimely⟩ := h.timely
  have hsystem : AtRest (System.InternalStep L) s.system := by
    intro a system hstep
    have hact : Step L associated s (.act a) { s with system := system } :=
      .act (fun v t i ha => absurd ha (hstep.2 v t i)) hstep.1
    exact hrest _ _ ⟨hact, hstep.2⟩
  obtain ⟨hexecutor, hnotifier, hqueue⟩ := h.orderly.atRest hsystem
  have hidle : ∀ v, s.handler v = .idle := by
    intro v
    cases hv : s.handler v with
    | idle => rfl
    | handling e =>
        obtain ⟨hnext, events, hret⟩ := htimely.exists_handle hv hfollowing
        exact absurd ⟨.handle hv hnext hret, trivial⟩ (hrest (.handle v e) _)
    | pushing l =>
        cases l with
        | nil => exact absurd ⟨.pushed hv (hnotifier v), trivial⟩ (hrest (.pushed v) _)
        | cons x rest =>
            obtain ⟨t, i⟩ := x
            have hlt : i < (s.system.task t).inputs.inputs.length := by
              rw [h.orderly.configured.length]
              exact h.pushing v _ hv (t, i) List.mem_cons_self
            have hstep : ∃ system, s.system.Step L (.notify v t i) system := by
              simp [System.Step, System.step, hnotifier v, List.getElem?_eq_getElem hlt]
            obtain ⟨system, hstep⟩ := hstep
            exact absurd ⟨.notify hv hstep, trivial⟩ (hrest (.notify v t i) _)
  refine ⟨hidle, ?_, hexecutor, hnotifier, hqueue⟩
  by_contra hpending
  obtain ⟨v⟩ := ‹Nonempty ν›
  obtain ⟨clock, e, hret⟩ := htimely.exists_read (by simpa using hpending)
  exact hrest (.readFirstPending v e) _ ⟨.readFirstPending (hidle v) (hnotifier v) hret, trivial⟩

private theorem running_opened {t₀ : Nat} {offsetTime : θ → Nat} {schedulers : List σ}
    (ht : t₀ < 2 ^ 63) :
    (opened L t₀ offsetTime inputs schedulers : Assembly η π θ τ σ ε γ ν).Running L inputs where
  timely := ⟨[], [], timely_opened ht⟩
  orderly := (System.started_still schedulers).orderly
  pushing _ _ h := by simp [opened] at h

private theorem internal_same (hstep : InternalStep L associated s action s') (h : s.Running L inputs) :
    s'.planned.plan = s.planned.plan ∧ s'.time = s.time := by
  obtain ⟨q, r, htimely⟩ := h.timely
  obtain ⟨hstep, hinternal⟩ := hstep
  cases hstep with
  | configure => exact hinternal.elim
  | advance => exact hinternal.elim
  | readFirstPending hv _ hret => exact ⟨rfl, (htimely.read hv hret).2⟩
  | handle hv hnext hret => exact ⟨rfl, (htimely.handle associated hv hnext hret).2.2.1⟩
  | notify | pushed | act => exact ⟨rfl, rfl⟩

/-- Whatever has become due comes to an end: from every state that a run reaches, while time stands
still, the steps that are left are bounded, and lead to rest. At rest no event is pending, every
event has been handled as often as its plan says, and no executor and no notifying thread has
anything to do. -/
theorem run_settles [Nonempty ν] {t₀ : Nat} {offsetTime : θ → Nat} {schedulers : List σ}
    (ht : t₀ < 2 ^ 63) (hbunched : ∀ t, (inputs t).Bunched)
    (hexists : ∀ e, ∀ x ∈ associated e, x.2 < (inputs x.1).inputs.length)
    (h : Run (Step L associated) (opened L t₀ offsetTime inputs schedulers) acts s)
    (hfollowing : ∀ e p, s.planned.plan e = some p → p.following s.time < 2 ^ 63)
    (hlater : Run (InternalStep L associated) s later s') :
    later.length + s'.work L associated (fun t => (inputs t).inputs.length) ≤
        s.work L associated (fun t => (inputs t).inputs.length) ∧
      (∃ more u, Run (InternalStep L associated) s' more u ∧ AtRest (InternalStep L associated) u) ∧
      (AtRest (InternalStep L associated) s' →
        (∀ e p, s.planned.plan e = some p → s'.planned.events.handlings e = p.handlings s.time) ∧
        (∀ v, s'.handler v = .idle) ∧ s'.planned.events.clock.isPending = false ∧
        (∀ e, s'.system.executor e = .idle) ∧ (∀ v, s'.system.notifier v = .idle) ∧
        ∀ e, s'.system.runQueue (L.scheduler e) = []) := by
  have hrunning : s.Running L inputs :=
    h.invariant (running_opened ht) fun _ _ _ hs hstep => hs.step hexists hstep
  have hlowers : Lowers (InternalStep L associated)
    (fun s : Assembly η π θ τ σ ε γ ν => s.Running L inputs)
      fun s => s.work L associated fun t => (inputs t).inputs.length :=
    ⟨fun hs hstep => hs.step hexists hstep.1, fun hs hstep => work_lt hs hbunched hstep⟩
  obtain ⟨hrunning', hplan, htime⟩ :
      s'.Running L inputs ∧ s'.planned.plan = s.planned.plan ∧ s'.time = s.time := by
    apply hlater.invariant (I := fun u : Assembly η π θ τ σ ε γ ν =>
      u.Running L inputs ∧ u.planned.plan = s.planned.plan ∧ u.time = s.time) ⟨hrunning, rfl, rfl⟩
    intro u a u' hu hstep
    obtain ⟨hsame, hnow⟩ := internal_same hstep hu.1
    exact ⟨hu.1.step hexists hstep.1, hsame.trans hu.2.1, hnow.trans hu.2.2⟩
  refine ⟨hlowers.length_add_le hrunning hlater, hlowers.exists_atRest hrunning', ?_⟩
  intro hrest
  rw [← hplan, ← htime] at hfollowing
  obtain ⟨hidle, hpending, hthreads⟩ := hrunning'.atRest hfollowing hrest
  refine ⟨?_, hidle, hpending, hthreads⟩
  intro e p hp
  obtain ⟨q, r, htimely⟩ := hrunning'.timely
  rw [← htime]
  exact htimely.settled (fun v e hv => by simp [hidle] at hv) hpending (by rw [hplan]; exact hp)

/-- The time jumps over the starts at 5, 15 and 25; then the threads are left alone. -/
theorem run_settles_three : ∃ (acts later : List (AssemblyAction Unit Unit Unit Unit))
    (s s' : Assembly Unit Unit Unit Unit Unit Unit Unit Unit),
    Run (Step .single fun _ => [((), 0)])
      (opened .single 0 (fun _ => 0) (fun _ => .configured 1 fun _ => 1) [()]) acts s ∧
    Run (InternalStep .single fun _ => [((), 0)]) s later s' ∧ s.time = 25 ∧
    s'.planned.events.handlings () = 3 ∧ s'.planned.events.clock.isPending = false ∧
    s'.system.executor () = .idle ∧ s'.system.runQueue () = [] := by
  let s₀ : Assembly Unit Unit Unit Unit Unit Unit Unit Unit :=
    opened .single 0 (fun _ => 0) (fun _ => .configured 1 fun _ => 1) [()]
  obtain ⟨events, q, hret, _, _, _, hclock, _⟩ :=
    setPeriodicTiming_returns (s := s₀.planned.events) (e := ()) 10 5 (Clock.represents_empty 0)
      List.not_mem_nil (by decide) (by decide) (by decide)
  have hzero : events.clock.time = 0 := hclock
  have hspan : events.clock.time + 25 < 2 ^ 63 := by
    rw [hzero]
    decide
  have hnow : events.clock.time + 25 = 25 := by rw [hzero]
  have hrun : Run (Step .single fun _ => [((), 0)]) s₀ _ _ :=
    (Run.start.next (.configure (c := .setPeriodicTiming () 10 5) (fun _ => by simp)
      ⟨⟨rfl, by decide, by decide⟩, hret.bind (returns_ok _)⟩)).next (.advance hspan)
  have hbunched : ∀ t : Unit, (InputArray.configured 1 fun _ => 1).Bunched := by
    intro t x hx
    obtain ⟨i, _, rfl⟩ := List.mem_map.mp hx
    exact fun _ => Nat.one_pos
  have hfollowing : ∀ e p, Function.update (fun _ : Unit => (none : Option Plan)) ()
    (some (.periodic 0 10 5)) e =
      some p → p.following (events.clock.time + 25) < 2 ^ 63 := by
    intro e p hp
    obtain rfl : Plan.periodic 0 10 5 = p := Option.some.inj hp
    rw [hnow]
    decide
  have hexists : ∀ e : Unit, ∀ x ∈ [((), 0)],
      x.2 < (InputArray.configured 1 fun _ => 1).inputs.length := by
    intro e x hx
    rw [List.mem_singleton.mp hx]
    decide
  obtain ⟨later, s', hlater, hrest⟩ :=
    (run_settles (by decide) hbunched hexists hrun hfollowing .start).2.1
  obtain ⟨hhandlings, _, hpending, hexecutor, _, hqueue⟩ :=
    (run_settles (by decide) hbunched hexists hrun hfollowing hlater).2.2 hrest
  have hthree : (Plan.periodic 0 10 5).handlings (events.clock.time + 25) = 3 := by
    rw [hnow]
    rfl
  exact ⟨_, later, _, s', hrun, hlater, hnow, (hhandlings () (.periodic 0 10 5) rfl).trans hthree,
    hpending,
    hexecutor (), hqueue ()⟩

end Assembly

end TaskingFramework
