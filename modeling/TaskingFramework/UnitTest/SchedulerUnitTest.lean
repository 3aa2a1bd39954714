import TaskingFramework.Event.QueuedOnce
import TaskingFramework.Task.Scheduler

/-!
# The scheduler for unit tests

A system of tasks, channels and events on `SchedulerUnitTest`. Its operations run one after the
other, and `schedule` handles the pending events and executes the queued tasks until nothing is
pending. A policy hands out the queued tasks in any order. The bodies of tasks push channels, by
which inputs are notified. Message channels and barriers do nothing to the clock or to the run queue
in their `reset`, and only an event among the channels of the inputs is kept.
-/

set_option linter.unusedSectionVars false

namespace TaskingFramework

open Foundation

/-- The groups of the tasks, and the associations of channels and inputs. -/
structure Wiring (τ γ ε θ : Type) where
  group : τ → Option γ
  taskList : γ → List τ
  channel : τ → Nat → Option ε
  eventInputs : ε → List (τ × Nat)
  triggerInputs : θ → List (τ × Nat)

def Wiring.init {τ γ ε θ : Type} : Wiring τ γ ε θ :=
  ⟨fun _ => none, fun _ => [], fun _ _ => none, fun _ => [], fun _ => []⟩

/-- The tasks that were executed are recorded, the latest at the end. -/
structure SchedulerUnitTest (τ γ ε π θ : Type) where
  wiring : Wiring τ γ ε θ
  scheduler : Scheduler τ
  events : Events ε π θ
  executions : List τ

inductive UnitTestCall (τ γ ε π θ : Type) where
  | wire (wiring : Wiring τ γ ε θ)
  | construct (task : τ) (inputs : InputArray)
  | configure (task : τ) (i activations : Nat) (final : Bool)
  | setSynchron (task : τ) (i : Nat) (syncState : Bool)
  | setCondition (task : τ) (condition : List Input → Bool)
  | push (inputs : List (τ × Nat))
  | event (call : EventCall ε π θ)
  | start (doReset : Bool)
  | schedule (timeSpan : Nat)
  | terminate (doNotRemovePendingTasks : Bool)

/-- The push of a channel. -/
def Scheduler.notifyAll {τ : Type} [DecidableEq τ] (s : Scheduler τ) (inputs : List (τ × Nat)) :
    Scheduler τ :=
  inputs.foldl (fun s x => s.notifyInput x.1 x.2) s

namespace SchedulerUnitTest

variable {τ γ ε π θ : Type} [DecidableEq τ] [DecidableEq γ] [DecidableEq ε] [DecidableEq π]
  [DecidableEq θ] {s u v w : SchedulerUnitTest τ γ ε π θ}

def init (inputs : τ → InputArray) (offsetTime : θ → Nat) : SchedulerUnitTest τ γ ε π θ :=
  ⟨.init, .init inputs, .init 0 offsetTime, []⟩

/-- What an effect of an event does to the tasks. -/
def deliver (s : SchedulerUnitTest τ γ ε π θ) (effect : Effect ε θ) : SchedulerUnitTest τ γ ε π θ :=
  match effect with
  | .push e => { s with scheduler := s.scheduler.notifyAll (s.wiring.eventInputs e) }
  | .pushTrigger t => { s with scheduler := s.scheduler.notifyAll (s.wiring.triggerInputs t) }
  | .handle _ | .wake _ => s

/-- The events have changed, and what they pushed is delivered in its order. -/
def follow (s : SchedulerUnitTest τ γ ε π θ) (events : Events ε π θ) : SchedulerUnitTest τ γ ε π θ :=
  (events.trace.drop s.events.trace.length).foldl (fun s entry => s.deliver entry.2)
    { s with events := events }

def handleEvents (fuel : Nat) (s : SchedulerUnitTest τ γ ε π θ) :
    Outcome (SchedulerUnitTest τ γ ε π θ) := do
  let events ← s.events.handleEvents fuel
  return s.follow events

/-- `Input::reset`: first the channel is reset, then the input. -/
def resetInput (fuel : Nat) (t : τ) (s : SchedulerUnitTest τ γ ε π θ) (i : Nat) :
    Outcome (SchedulerUnitTest τ γ ε π θ) := do
  let events ←
    match s.wiring.channel t i with
    | some e => s.events.reset fuel e
    | none => .ok s.events
  return { s with events := events, scheduler := s.scheduler.resetInput t i }

/-- `Task::reset`. -/
def reset (fuel : Nat) (s : SchedulerUnitTest τ γ ε π θ) (t : τ) :
    Outcome (SchedulerUnitTest τ γ ε π θ) := do
  let inputs := List.range (s.scheduler.task t).inputs.inputs.length
  let s ← inputs.foldlM (resetInput fuel t)
    { s with scheduler := s.scheduler.setTask t (s.scheduler.task t).resetEnter }
  let r := (s.scheduler.task t).resetFinish
  let scheduler := s.scheduler.setTask t r.1
  return { s with scheduler := if r.2 then scheduler.perform t else scheduler }

/-- `TaskImpl::finalizeExecution`, with the one of the group. -/
def finalizeExecution (fuel : Nat) (s : SchedulerUnitTest τ γ ε π θ) (t : τ) :
    Outcome (SchedulerUnitTest τ γ ε π θ) :=
  match s.wiring.group t with
  | none => s.reset fuel t
  | some g =>
      let s := { s with
        scheduler := s.scheduler.setTask t { s.scheduler.task t with state := .finish } }
      if (s.wiring.taskList g).all fun f => (s.scheduler.task f).isExecuted then
        (s.wiring.taskList g).foldlM (reset fuel) s
      else .ok s

/-- `nextTask` has returned the task. Its body notifies the inputs. -/
def execute (fuel : Nat) (s : SchedulerUnitTest τ γ ε π θ) (t : τ) (notified : List (τ × Nat)) :
    Outcome (SchedulerUnitTest τ γ ε π θ) :=
  let fetched := { s.scheduler with runQueue := s.scheduler.runQueue.erase t }
  finalizeExecution fuel
    { s with scheduler := fetched.notifyAll notified, executions := s.executions ++ [t] } t

def start (fuel : Nat) (s : SchedulerUnitTest τ γ ε π θ) (doReset : Bool) :
    Outcome (SchedulerUnitTest τ γ ε π θ) :=
  if doReset then
    s.scheduler.associatedTasks.foldlM (reset fuel)
      { s with scheduler := { s.scheduler with running := true } }
  else .ok { s with scheduler := s.scheduler.start false }

def step (s : SchedulerUnitTest τ γ ε π θ) (span : Nat) : SchedulerUnitTest τ γ ε π θ :=
  { s with events := { s.events with
      clock := { s.events.clock with time := (s.events.clock.time + span) % 2 ^ 64 } } }

/-- The loop of `schedule` over the queued tasks. -/
inductive Executes : SchedulerUnitTest τ γ ε π θ → SchedulerUnitTest τ γ ε π θ → Prop where
  | empty {s : SchedulerUnitTest τ γ ε π θ} (hqueue : s.scheduler.runQueue = []) : Executes s s
  | next {s u v : SchedulerUnitTest τ γ ε π θ} {t : τ} {notified : List (τ × Nat)}
      (ht : t ∈ s.scheduler.runQueue) (hreturn : Returns (fun fuel => s.execute fuel t notified) u)
      (hrest : Executes u v) : Executes s v

/-- `schedule` behind the step in time. -/
inductive Loops : SchedulerUnitTest τ γ ε π θ → SchedulerUnitTest τ γ ε π θ → Prop where
  | last {s u v : SchedulerUnitTest τ γ ε π θ}
      (hhandle : Returns (fun fuel => s.handleEvents fuel) u) (hexecute : Executes u v)
      (hpending : v.events.clock.isPending = false) : Loops s v
  | again {s u v w : SchedulerUnitTest τ γ ε π θ}
      (hhandle : Returns (fun fuel => s.handleEvents fuel) u) (hexecute : Executes u v)
      (hpending : v.events.clock.isPending = true) (hrest : Loops v w) : Loops s w

def Schedules (s : SchedulerUnitTest τ γ ε π θ) (span : Nat) (u : SchedulerUnitTest τ γ ε π θ) :
    Prop :=
  Loops (s.step span) u

/-- The scheduler does not run, and its clock is `clock`. -/
def stopped (s : SchedulerUnitTest τ γ ε π θ) (doNotRemovePendingTasks : Bool) (clock : Clock ε) :
    SchedulerUnitTest τ γ ε π θ :=
  { s with
    events := { s.events with clock := clock }
    scheduler := { s.scheduler with
      running := false
      runQueue := if doNotRemovePendingTasks then s.scheduler.runQueue else [] } }

/-- `waitUntilEmpty` calls `schedule` without a time span. -/
def Terminates (s : SchedulerUnitTest τ γ ε π θ) (doNotRemovePendingTasks : Bool)
    (u : SchedulerUnitTest τ γ ε π θ) : Prop :=
  ∃ clock, Returns (fun fuel => s.events.clock.dequeueAll fuel) clock ∧
    Schedules (s.stopped doNotRemovePendingTasks clock) 0 u

/-- The pending events are handled and the time passes by `schedule` only. -/
def Operates : EventCall ε π θ → Prop
  | .handleEvents | .advance _ => False
  | _ => True

def Step (s : SchedulerUnitTest τ γ ε π θ) (c : UnitTestCall τ γ ε π θ)
    (u : SchedulerUnitTest τ γ ε π θ) : Prop :=
  match c with
  | .wire wiring => u = { s with wiring := wiring }
  | .construct t inputs => u = { s with scheduler := s.scheduler.construct t inputs }
  | .configure t i activations final =>
      u = { s with scheduler := s.scheduler.configure t i activations final }
  | .setSynchron t i syncState => u = { s with scheduler := s.scheduler.setSynchron t i syncState }
  | .setCondition t condition => u = { s with scheduler := s.scheduler.setCondition t condition }
  | .push inputs => u = { s with scheduler := s.scheduler.notifyAll inputs }
  | .event c => Operates c ∧ ∃ events, Returns (fun fuel => s.events.perform fuel c) events ∧
      u = s.follow events
  | .start doReset => Returns (fun fuel => s.start fuel doReset) u
  | .schedule span => Schedules s span u
  | .terminate doNotRemovePendingTasks => Terminates s doNotRemovePendingTasks u

end SchedulerUnitTest

end TaskingFramework
