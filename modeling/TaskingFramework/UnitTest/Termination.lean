import TaskingFramework.Event.RelativeTiming
import TaskingFramework.UnitTest.Rearming

/-!
# Termination

`terminate` clears the clock queue before the remaining tasks are executed. The reset of an executed
task resets the channels of its inputs, and starts an event with a relative timing again. If no such
event is among the channels of the tasks that are reset, nothing is left in the run queue and in the
clock queue.
-/

set_option linter.unusedSectionVars false

namespace TaskingFramework

open Foundation

namespace SchedulerUnitTest

variable {τ γ ε π θ : Type} [DecidableEq τ] [DecidableEq γ] [DecidableEq ε] [DecidableEq π]
  [DecidableEq θ] {s s₀ u v w : SchedulerUnitTest τ γ ε π θ} {t : τ} {i fuel : Nat}
  {c : UnitTestCall τ γ ε π θ}

/-- A state on the way of `waitUntilEmpty` from `s₀` on. -/
structure Settling (s₀ s : SchedulerUnitTest τ γ ε π θ) : Prop where
  wiring : s.wiring = s₀.wiring
  event : s.events.event = s₀.events.event
  running : s.scheduler.running = false
  runQueue : s.scheduler.runQueue ⊆ s₀.scheduler.runQueue
  executed : ∀ t, (s.scheduler.task t).state = .finish →
    (s₀.scheduler.task t).state = .finish ∨ t ∈ s₀.scheduler.runQueue
  inputs : ∀ t, (s.scheduler.task t).inputs.inputs.length = (s₀.scheduler.task t).inputs.inputs.length
  disarmed : s.events.Disarmed

private theorem Settling.keeps {scheduler : Scheduler τ} (h : Settling s₀ s)
    (hkeeps : Scheduler.Keeps s.scheduler scheduler) :
    Settling s₀ { s with scheduler := scheduler } where
  wiring := h.wiring
  event := h.event
  running := hkeeps.running.trans h.running
  runQueue := by
    rw [hkeeps.runQueue h.running]
    exact h.runQueue
  executed t ht := h.executed t (hkeeps.finished t ht)
  inputs t := (hkeeps.inputs t).trans (h.inputs t)
  disarmed := h.disarmed

private theorem Settling.deliver (h : Settling s₀ s) (effect : Effect ε θ) :
    Settling s₀ (s.deliver effect) := by
  cases effect with
  | push e => exact h.keeps (.notifyAll _)
  | pushTrigger trigger => exact h.keeps (.notifyAll _)
  | handle e => exact h
  | wake wake => exact h

private theorem Settling.events {events : Events ε π θ} (h : Settling s₀ s)
    (hevent : events.event = s.events.event)
    (hdisarmed : events.Disarmed) : Settling s₀ { s with events := events } :=
  { h with event := hevent.trans h.event, disarmed := hdisarmed }

private theorem deliver_events (effect : Effect ε θ) : (s.deliver effect).events = s.events := by
  cases effect <;> rfl

private theorem Settling.delivers (h : Settling s₀ s) (l : List (Nat × Effect ε θ)) :
    Settling s₀ (l.foldl (fun s entry => s.deliver entry.2) s) ∧
      (l.foldl (fun s entry => s.deliver entry.2) s).events = s.events := by
  induction l generalizing s with
  | nil => exact ⟨h, rfl⟩
  | cons entry l ih =>
      obtain ⟨hrest, hevents⟩ := ih (h.deliver entry.2)
      exact ⟨hrest, hevents.trans (deliver_events entry.2)⟩

private theorem Settling.handleEvents (h : Settling s₀ s) (hret : s.handleEvents fuel = .ok u) :
    Settling s₀ u ∧ u.events.clock.queueHead = none := by
  obtain ⟨events, hhandle, hret⟩ := bind_eq_ok.mp hret
  obtain rfl := Except.ok.inj hret
  obtain ⟨hdisarmed, hevent, hhead⟩ := h.disarmed.handleEvents hhandle
  obtain ⟨hdeliver, hevents⟩ := (h.events hevent hdisarmed).delivers
    (events.trace.drop s.events.trace.length)
  refine ⟨hdeliver, ?_⟩
  rw [show (s.follow events).events = events from hevents]
  exact hhead

private theorem Settling.resetInput (h : Settling s₀ s)
    (hi : i < (s₀.scheduler.task t).inputs.inputs.length)
    (ht : ¬ s₀.RearmsBy t) (hret : resetInput fuel t s i = .ok u) : Settling s₀ u := by
  unfold SchedulerUnitTest.resetInput at hret
  cases hchannel : s.wiring.channel t i with
  | none =>
      simp only [hchannel, ok_bind] at hret
      obtain rfl := Except.ok.inj hret
      exact h.keeps .resetInput
  | some e =>
      simp only [hchannel] at hret
      obtain ⟨events, hreset, hret⟩ := bind_eq_ok.mp hret
      obtain rfl := Except.ok.inj hret
      have he : ¬ s.events.Rearms e := by
        intro hrearms
        refine ht ⟨i, e, hi, h.wiring ▸ hchannel, ?_⟩
        unfold Events.Rearms at hrearms ⊢
        rw [← h.event]
        exact hrearms
      obtain ⟨hdisarmed, hevent⟩ := h.disarmed.reset he hreset
      exact (h.events hevent hdisarmed).keeps .resetInput

private theorem Settling.reset (h : Settling s₀ s) (ht : ¬ s₀.RearmsBy t)
    (hret : s.reset fuel t = .ok u) :
    Settling s₀ u := by
  obtain ⟨v, hinputs, hret⟩ := bind_eq_ok.mp hret
  obtain rfl := Except.ok.inj hret
  have hv : Settling s₀ v := by
    refine foldlM_invariant (I := Settling s₀) hinputs (h.keeps .resetEnter) fun a i b hi ha hb => ?_
    rw [List.mem_range, h.inputs t] at hi
    exact ha.resetInput hi ht hb
  split
  · exact (hv.keeps .resetFinish).keeps .perform
  · exact hv.keeps .resetFinish

private theorem Settling.finish (h : Settling s₀ s) (ht : t ∈ s₀.scheduler.runQueue) :
    Settling s₀ { s with
      scheduler := s.scheduler.setTask t { s.scheduler.task t with state := .finish } } := by
  have hother : ∀ f, f ≠ t →
      (s.scheduler.setTask t { s.scheduler.task t with state := .finish }).task f =
          s.scheduler.task f :=
    fun f hft => Function.update_of_ne hft _ _
  refine { h with executed := fun f hf => ?_, inputs := fun f => ?_ }
  · by_cases hft : f = t
    · exact Or.inr (hft ▸ ht)
    · rw [hother f hft] at hf
      exact h.executed f hf
  · by_cases hft : f = t
    · rw [hft, Scheduler.setTask_self]
      exact h.inputs t
    · rw [hother f hft]
      exact h.inputs f

private theorem Settling.finalizeExecution (h : Settling s₀ s) (hnot : ¬ s₀.Rearms)
    (ht : t ∈ s₀.scheduler.runQueue) (hret : s.finalizeExecution fuel t = .ok u) : Settling s₀ u := by
  unfold SchedulerUnitTest.finalizeExecution at hret
  cases hgroup : s.wiring.group t with
  | none =>
      simp only [hgroup] at hret
      refine h.reset (fun hrearms => hnot ⟨t, Or.inl ⟨ht, ?_⟩, hrearms⟩) hret
      rw [← h.wiring]
      exact hgroup
  | some g =>
      simp only [hgroup] at hret
      have hfinish := h.finish ht
      split at hret
      · rename_i hall
        have hmembers : ∀ f ∈ s₀.wiring.taskList g,
            (s₀.scheduler.task f).state = .finish ∨ f ∈ s₀.scheduler.runQueue := by
          intro f hf
          rw [← h.wiring] at hf
          exact hfinish.executed f (of_decide_eq_true (List.all_eq_true.mp hall f hf))
        refine foldlM_invariant (I := Settling s₀) hret hfinish fun a f b hf ha hb => ?_
        rw [h.wiring] at hf hgroup
        exact ha.reset (fun hrearms => hnot ⟨f, Or.inr ⟨g, hf, ⟨t, ht, hgroup⟩, hmembers⟩, hrearms⟩) hb
      · obtain rfl := Except.ok.inj hret
        exact hfinish

private theorem Settling.executes (h : Settling s₀ s) (hnot : ¬ s₀.Rearms) (hexecute : Executes s u) :
    Settling s₀ u ∧ u.scheduler.runQueue = [] := by
  induction hexecute with
  | empty hqueue => exact ⟨h, hqueue⟩
  | @next s u v t notified ht hreturn _ ih =>
      obtain ⟨fuel, hret⟩ := hreturn.exists
      have hfetched : Settling s₀ { s with
          scheduler := { s.scheduler with runQueue := s.scheduler.runQueue.erase t }
          executions := s.executions ++ [t] } :=
        { h with runQueue := fun f hf => h.runQueue (List.mem_of_mem_erase hf) }
      exact ih ((hfetched.keeps (.notifyAll notified)).finalizeExecution hnot (h.runQueue ht) hret)

private theorem Settling.loops (h : Settling s₀ s) (hnot : ¬ s₀.Rearms) (hloops : Loops s u) :
    Settling s₀ u ∧ u.scheduler.runQueue = [] ∧ u.events.clock.queueHead = none := by
  induction hloops with
  | last hhandle hexecute hpending =>
      obtain ⟨fuel, hret⟩ := hhandle.exists
      obtain ⟨hv, hqueue⟩ := (h.handleEvents hret).1.executes hnot hexecute
      obtain ⟨D, hclock, _⟩ := hv.disarmed
      exact ⟨hv, hqueue, hclock.not_pending hpending⟩
  | again hhandle hexecute _ _ ih =>
      obtain ⟨fuel, hret⟩ := hhandle.exists
      exact ih ((h.handleEvents hret).1.executes hnot hexecute).1

/-- Nothing is in the run queue and in the clock queue of a scheduler that does not run. -/
structure Idle (s : SchedulerUnitTest τ γ ε π θ) : Prop where
  running : s.scheduler.running = false
  runQueue : s.scheduler.runQueue = []
  queueHead : s.events.clock.queueHead = none

private theorem Terminates.idle {doNotRemovePendingTasks : Bool}
    (h : Terminates s doNotRemovePendingTasks u)
    (hnot : doNotRemovePendingTasks = true → ¬ s.Rearms) : u.Idle := by
  obtain ⟨clock, hclear, hloops⟩ := h
  obtain ⟨fuel, hret⟩ := hclear.exists
  obtain ⟨hclock, _, _⟩ := Clock.dequeueAll_onlyDue hret
  let s₀ := (s.stopped doNotRemovePendingTasks clock).step 0
  have hstart : Settling s₀ s₀ := by
    refine ⟨rfl, rfl, rfl, List.Subset.refl _, fun _ => Or.inl, fun _ => rfl, ∅, ?_, nofun⟩
    exact ⟨hclock.head, nofun, nofun, nofun⟩
  have hrearms : ¬ s₀.Rearms := by
    intro hrearms
    cases doNotRemovePendingTasks with
    | true => exact hnot rfl hrearms
    | false =>
        obtain ⟨t, ⟨ht, _⟩ | ⟨g, _, ⟨f, hf, _⟩, _⟩, _⟩ := hrearms
        · exact List.not_mem_nil ht
        · exact List.not_mem_nil hf
  obtain ⟨hu, hqueue, hhead⟩ := hstart.loops hrearms hloops
  exact ⟨hu.running, hqueue, hhead⟩

/-- No event is configured, triggered or reset, and the scheduler is not started. -/
def Quiet : UnitTestCall τ γ ε π θ → Prop
  | .start _ => False
  | .event (.stop _) | .event (.add _ _) => True
  | .event _ => False
  | _ => True

private theorem Idle.scheduler {scheduler : Scheduler τ} (h : s.Idle)
    (hrunning : scheduler.running = s.scheduler.running)
    (hqueue : scheduler.runQueue = s.scheduler.runQueue) :
    ({ s with scheduler := scheduler } : SchedulerUnitTest τ γ ε π θ).Idle :=
  ⟨hrunning.trans h.running, hqueue.trans h.runQueue, h.queueHead⟩

private theorem handleEvents_empty {events r : Events ε π θ} (hhead : events.clock.queueHead = none)
    (hret : events.handleEvents fuel = .ok r) : r = events := by
  cases fuel with
  | zero => exact absurd hret (by simp [Events.handleEvents])
  | succ fuel =>
      simp only [Events.handleEvents, Clock.readFirstPending, hhead, ok_bind, pure_eq_ok] at hret
      exact (Except.ok.inj hret).symm

private theorem Idle.loops (h : s.Idle) (hloops : Loops s u) : u = s := by
  have hall : ∀ v, Returns (fun fuel => s.handleEvents fuel) v → ∀ w, Executes v w → w = s := by
    intro v hhandle w hexecute
    obtain ⟨fuel, hret⟩ := hhandle.exists
    obtain ⟨events, hevents, hret⟩ := bind_eq_ok.mp hret
    obtain rfl := Except.ok.inj hret
    obtain rfl := handleEvents_empty h.queueHead hevents
    rw [follow_same rfl] at hexecute
    cases hexecute with
    | empty _ => rfl
    | next ht _ _ =>
        rw [h.runQueue] at ht
        exact absurd ht List.not_mem_nil
  cases hloops with
  | last hhandle hexecute _ => exact hall _ hhandle _ hexecute
  | again hhandle hexecute hpending _ =>
      rw [hall _ hhandle _ hexecute] at hpending
      simp only [Clock.isPending, h.queueHead] at hpending
      cases hpending

private theorem Idle.schedule (h : s.Idle) (span : Nat) : Step s (.schedule span) (s.step span) := by
  have hhandle : Returns (fun fuel => (s.step span).handleEvents fuel) (s.step span) := by
    refine returns_of_add 1 fun fuel => ?_
    have hhead : (s.step span).events.clock.queueHead = none := h.queueHead
    simp only [SchedulerUnitTest.handleEvents, Events.handleEvents, Clock.readFirstPending, hhead,
      ok_bind, pure_eq_ok]
    rw [follow_same rfl]
  have hpending : (s.step span).events.clock.isPending = false := by
    unfold Clock.isPending
    rw [show (s.step span).events.clock.queueHead = none from h.queueHead]
  exact .last hhandle (.empty h.runQueue) hpending

private theorem Idle.event {e : EventCall ε π θ} {events : Events ε π θ} (h : s.Idle)
    (hc : Quiet (.event e : UnitTestCall τ γ ε π θ)) (hret : s.events.perform fuel e = .ok events) :
    (s.follow events).Idle ∧ (s.follow events).executions = s.executions ∧
      (s.follow events).events.trace = s.events.trace := by
  have hkeeps : events.trace = s.events.trace ∧ events.clock.queueHead = none := by
    cases e with
    | stop e =>
        obtain ⟨u, hdequeue, hret⟩ := bind_eq_ok.mp hret
        obtain rfl := Except.ok.inj hret
        obtain ⟨clock, hclock, hu⟩ := bind_eq_ok.mp hdequeue
        obtain rfl := Except.ok.inj hu
        have hclock := (Clock.onlyDue_empty h.queueHead).dequeue (Set.notMem_empty e) hclock
        exact ⟨rfl, hclock.1.queueHead⟩
    | add p trigger =>
        obtain ⟨schedules, _, hret⟩ := bind_eq_ok.mp hret
        obtain rfl := Except.ok.inj hret
        exact ⟨rfl, h.queueHead⟩
    | _ => exact hc.elim
  rw [follow_same hkeeps.1]
  exact ⟨⟨h.running, h.runQueue, hkeeps.2⟩, rfl, hkeeps.1⟩

private theorem Idle.step (h : s.Idle) (hc : Quiet c) (hstep : Step s c u) :
    u.Idle ∧ u.executions = s.executions ∧ u.events.trace = s.events.trace := by
  cases c with
  | wire wiring =>
      obtain rfl := hstep
      exact ⟨⟨h.running, h.runQueue, h.queueHead⟩, rfl, rfl⟩
  | construct t inputs =>
      obtain rfl := hstep
      exact ⟨h.scheduler rfl rfl, rfl, rfl⟩
  | configure t i activations final =>
      obtain rfl := hstep
      refine ⟨h.scheduler ?_ ?_, rfl, rfl⟩
      · unfold Scheduler.configure
        split <;> rfl
      · unfold Scheduler.configure
        split <;> rfl
  | setSynchron t i syncState =>
      obtain rfl := hstep
      refine ⟨h.scheduler ?_ ?_, rfl, rfl⟩
      · unfold Scheduler.setSynchron
        split <;> rfl
      · unfold Scheduler.setSynchron
        split <;> rfl
  | setCondition t condition =>
      obtain rfl := hstep
      exact ⟨h.scheduler rfl rfl, rfl, rfl⟩
  | push inputs =>
      obtain rfl := hstep
      have hkeeps : Scheduler.Keeps s.scheduler (s.scheduler.notifyAll inputs) := .notifyAll inputs
      exact ⟨h.scheduler hkeeps.running (hkeeps.runQueue h.running), rfl, rfl⟩
  | event e =>
      obtain ⟨_, events, hreturn, rfl⟩ := hstep
      obtain ⟨fuel, hret⟩ := hreturn.exists
      exact h.event hc hret
  | start doReset => exact hc.elim
  | schedule span =>
      have hidle : (s.step span).Idle := ⟨h.running, h.runQueue, h.queueHead⟩
      obtain rfl := hidle.loops hstep
      exact ⟨hidle, rfl, rfl⟩
  | terminate doNotRemovePendingTasks =>
      obtain ⟨clock, hclear, hloops⟩ := hstep
      obtain ⟨fuel, hret⟩ := hclear.exists
      obtain ⟨_, hhead, _⟩ := Clock.dequeueAll_onlyDue hret
      have hidle : ((s.stopped doNotRemovePendingTasks clock).step 0).Idle := by
        refine ⟨rfl, ?_, hhead⟩
        show (if doNotRemovePendingTasks then s.scheduler.runQueue else []) = []
        rw [h.runQueue, ite_self]
      obtain rfl := hidle.loops hloops
      exact ⟨hidle, rfl, rfl⟩

private theorem Idle.run {l : List (UnitTestCall τ γ ε π θ)} (h : u.Idle)
    (hlater : Run (fun u c v => Step u c v ∧ Quiet c) u l v) :
    v.Idle ∧ v.executions = u.executions ∧ v.events.trace = u.events.trace := by
  induction hlater with
  | start => exact ⟨h, rfl, rfl⟩
  | next _ hquiet ih =>
      obtain ⟨hidle, hexecutions, htrace⟩ := ih
      obtain ⟨hnext, hexecutions', htrace'⟩ := hidle.step hquiet.2 hquiet.1
      exact ⟨hnext, hexecutions'.trans hexecutions, htrace'.trans htrace⟩

/-- Behind `terminate` no event is handled and no task is executed, until an event is configured,
triggered or reset or the scheduler is started again. This is so in any state in which the tasks are
removed, or in which none of the remaining ones starts an event for a later time by its reset. If
one of them does, an event stands in the clock queue behind `terminate`. -/
theorem terminate_idle {doNotRemovePendingTasks : Bool}
    (hstep : Step s (.terminate doNotRemovePendingTasks) u) :
    ((doNotRemovePendingTasks = true → ¬ s.Rearms) → ∀ (l : List (UnitTestCall τ γ ε π θ))
      (v : SchedulerUnitTest τ γ ε π θ), Run (fun u c v => Step u c v ∧ Quiet c) u l v →
        v.Idle ∧ v.executions = u.executions ∧ v.events.trace = u.events.trace) ∧
    (doNotRemovePendingTasks = true → s.Rearms → s.Regular → (∃ q, s.events.clock.Represents q) →
      u.events.clock.queueHead ≠ none) := by
  refine ⟨fun hnot l v hlater => (Terminates.idle hstep hnot).run hlater, ?_⟩
  rintro rfl hrearms hregular ⟨q, hclock⟩
  exact Terminates.rearmed hstep hregular hclock hrearms

private theorem execute_single {e : ε} {events : Events ε π θ} (hgroup : s.wiring.group t = none)
    (hinputs : (s.scheduler.task t).inputs.inputs.length = 1) (hchannel : s.wiring.channel t 0 = some e)
    (hreset : Returns (fun fuel => s.events.reset fuel e) events) :
    Returns (fun fuel => s.execute fuel t []) { s with
      scheduler := s.scheduler.execute t
      events := events
      executions := s.executions ++ [t] } := by
  obtain ⟨bound, hbound⟩ := hreset
  refine ⟨bound, fun fuel hfuel => ?_⟩
  have hrange : List.range (s.scheduler.task t).inputs.inputs.length = [0] := by
    rw [hinputs]
    rfl
  simp only [SchedulerUnitTest.execute, finalizeExecution, hgroup, SchedulerUnitTest.reset,
    Scheduler.notifyAll, List.foldl_nil, hrange, List.foldlM_cons, List.foldlM_nil,
    SchedulerUnitTest.resetInput, hchannel, hbound fuel hfuel, ok_bind, pure_eq_ok, Scheduler.execute,
    Scheduler.reset, List.foldl_cons]

def optionalWiring : Wiring Unit Unit Unit Unit := { Wiring.init with channel := fun _ _ => some () }

/-- One task whose optional input is on the event. -/
def optionalTask (events : Events Unit Unit Unit) : SchedulerUnitTest Unit Unit Unit Unit Unit where
  wiring := optionalWiring
  scheduler := ((Scheduler.init fun _ => ⟨[], none⟩).construct () ⟨[.init], none⟩).configure
    () 0 0 false
  events := events
  executions := []

/-- A start without a reset queues the task. -/
def startedTask (events : Events Unit Unit Unit) : SchedulerUnitTest Unit Unit Unit Unit Unit :=
  { optionalTask events with scheduler := (optionalTask events).scheduler.start false }

def optionalCalls : List (UnitTestCall Unit Unit Unit Unit Unit) :=
  [.wire optionalWiring, .construct () ⟨[.init], none⟩, .configure () 0 0 false]

private theorem optionalCalls_run :
    Run Step (init (fun _ => ⟨[], none⟩) fun _ => 0) optionalCalls
        (optionalTask (.init 0 fun _ => 0)) := by
  let s : SchedulerUnitTest Unit Unit Unit Unit Unit := init (fun _ => ⟨[], none⟩) fun _ => 0
  let s₁ := { s with wiring := optionalWiring }
  let s₂ := { s₁ with scheduler := s₁.scheduler.construct () ⟨[.init], none⟩ }
  have h₁ : Step s (.wire optionalWiring) s₁ := rfl
  have h₂ : Step s₁ (.construct () ⟨[.init], none⟩) s₂ := rfl
  have h₃ : Step s₂ (.configure () 0 0 false) (optionalTask (.init 0 fun _ => 0)) := rfl
  exact ((Run.start.next h₁).next h₂).next h₃

private theorem startedTask_step (events : Events Unit Unit Unit) :
    Step (optionalTask events) (.start false) (startedTask events) :=
  returns_of_add 0 fun _ => rfl

private theorem optionalTask_terminates {events r : Events Unit Unit Unit}
    (hevents : events.clock = .empty 0)
    (hreset : Returns (fun fuel => events.reset fuel ()) r) (hpending : r.clock.isPending = false) :
    ∃ u, Step (startedTask events) (.terminate true) u ∧ u.executions = [()] ∧ u.events = r := by
  obtain ⟨clock, event, schedules, trace⟩ := events
  obtain rfl : clock = .empty 0 := hevents
  let s := ((startedTask ⟨.empty 0, event, schedules, trace⟩).stopped true (.empty 0)).step 0
  have hhandle : Returns (fun fuel => s.handleEvents fuel) s := returns_of_add 1 fun fuel => by
    show Except.ok (s.follow s.events) = .ok s
    rw [follow_same rfl]
  have hexecute := execute_single (s := s) (t := ()) rfl rfl rfl hreset
  let u := { s with scheduler := s.scheduler.execute (), events := r, executions := [()] }
  refine ⟨u, ⟨.empty 0, returns_of_add 1 fun fuel => rfl, ?_⟩, rfl, rfl⟩
  exact .last hhandle (.next List.mem_cons_self hexecute (.empty rfl)) hpending

theorem terminate_idle_optional : ∃ s u v : SchedulerUnitTest Unit Unit Unit Unit Unit,
    Run Step (init (fun _ => ⟨[], none⟩) fun _ => 0) (optionalCalls ++ [.start false]) s ∧
    s.scheduler.runQueue = [()] ∧ Step s (.terminate true) u ∧ u.executions = [()] ∧
    Run Step u [.schedule 5] v ∧ v.Idle ∧ v.executions = u.executions ∧
    v.events.trace = u.events.trace := by
  let events : Events Unit Unit Unit := .init 0 fun _ => 0
  let s := startedTask events
  have hreset : Returns (fun fuel => events.reset fuel ()) events := returns_of_add 0 fun fuel => rfl
  obtain ⟨u, hstep, hexecuted, hevents⟩ := optionalTask_terminates rfl hreset rfl
  have hnot : ¬ s.Rearms := by
    rintro ⟨_, _, _, _, _, _, hconfigured, _⟩
    cases hconfigured
  have hidle : u.Idle := Terminates.idle hstep fun _ => hnot
  have hschedule := hidle.schedule 5
  have hall := (terminate_idle hstep).1 (fun _ => hnot) _ _ (Run.start.next ⟨hschedule, trivial⟩)
  exact ⟨s, u, u.step 5, optionalCalls_run.next (startedTask_step events), rfl, hstep, hexecuted,
    Run.start.next hschedule, hall⟩

/-- The event is started again behind the removal of all events from the clock. -/
theorem terminate_rearms : ∃ s u : SchedulerUnitTest Unit Unit Unit Unit Unit,
    Run Step (init (fun _ => ⟨[], none⟩) fun _ => 0)
      (optionalCalls ++ [.event (.setRelativeTiming () 5), .start false]) s ∧
    Step s (.terminate true) u ∧ ¬ u.Idle := by
  let events₀ : Events Unit Unit Unit := .init 0 fun _ => 0
  let events := events₀.setEvent () ⟨true, false, 5, none⟩
  have hset : Step (optionalTask events₀) (.event (.setRelativeTiming () 5)) (optionalTask events) :=
    ⟨trivial, events, returns_of_add 0 fun fuel => rfl, rfl⟩
  have hrun := (optionalCalls_run.next hset).next (startedTask_step events)
  have hrep : events.clock.Represents [] := Clock.represents_empty 0
  have hrestartable : events.Restartable () := Events.restartable_outside hrep List.not_mem_nil
  obtain ⟨r, q, hreset, _, hclock, hperm, htime, hact, _⟩ :=
    Events.reset_returns hrep rfl hrestartable (by decide) (by decide)
  have hqueue : q = [()] := List.perm_singleton.mp hperm
  have hhead : r.clock.queueHead = some () := by
    rw [hqueue] at hclock
    exact Chain.head hclock.chain
  have hpending : r.clock.isPending = false := by
    unfold Clock.isPending
    simp only [hhead, hact, htime, Function.update_self]
    decide
  obtain ⟨u, hstep, _, hevents⟩ := optionalTask_terminates rfl hreset hpending
  refine ⟨_, u, hrun, hstep, fun hidle => ?_⟩
  have hnone := hidle.queueHead
  rw [hevents, hhead] at hnone
  cases hnone

end SchedulerUnitTest

end TaskingFramework
