import TaskingFramework.Clock.Represents
import TaskingFramework.Event.PeriodicSchedule
import TaskingFramework.Foundation.Calls

/-!
# Events

The events of a system share one clock. Their operations and `handleEvents` run one after the other,
with the default hooks `shallFire` and `onFire`. The members `queued`, `next`, `previous` and
`nextActivation_ms` of an event are kept by the clock. What the operations do to the outside, the
handling of an event, its push, the pushes of the triggers of a schedule and the wake-ups of the
clock, is recorded in a trace with the time at which it happens.
-/

namespace TaskingFramework

open Foundation

structure EventImpl (π : Type) where
  configured : Bool
  periodical : Bool
  period_ms : Nat
  periodicSchedule : Option π
  deriving DecidableEq, Repr

def EventImpl.init {π : Type} : EventImpl π := ⟨false, false, 0, none⟩

inductive Effect (ε θ : Type) where
  | handle (event : ε)
  | push (event : ε)
  | pushTrigger (trigger : θ)
  | wake (wake : Wake)
  deriving DecidableEq, Repr

structure Events (ε π θ : Type) where
  clock : Clock ε
  event : ε → EventImpl π
  schedules : Schedules π θ
  trace : List (Nat × Effect ε θ)

inductive EventCall (ε π θ : Type) where
  | setPeriodicTiming (event : ε) (period offset : Nat)
  | setPeriodicSchedule (event : ε) (period offset : Nat) (schedule : π)
  | setRelativeTiming (event : ε) (delay : Nat)
  | trigger (event : ε) (time : Nat)
  | stop (event : ε)
  | reset (event : ε)
  | add (schedule : π) (trigger : θ)
  | handleEvents
  | advance (span : Nat)
  deriving DecidableEq, Repr

/-- The first time behind `now` among `start`, `start + period`, `start + 2 * period`, .. -/
def nextPeriod (start period now : Nat) : Nat := start + ((now - start) / period + 1) * period

namespace Events

variable {ε π θ : Type}

/-- Freshly constructed events and schedules; a trigger has its offset only. -/
def init (time : Nat) (offsetTime : θ → Nat) : Events ε π θ where
  clock := Clock.empty time
  event _ := .init
  schedules := ⟨fun _ => .init, fun t => ⟨offsetTime t, none⟩⟩
  trace := []

def emit (s : Events ε π θ) (effect : Effect ε θ) : Events ε π θ :=
  { s with trace := s.trace ++ [(s.clock.time, effect)] }

def shallFire (s : Events ε π θ) (e : ε) : Bool := (s.event e).periodicSchedule.isNone

variable [DecidableEq ε] [DecidableEq π] [DecidableEq θ]

def setEvent (s : Events ε π θ) (e : ε) (event : EventImpl π) : Events ε π θ :=
  { s with event := Function.update s.event e event }

def startAt (fuel : Nat) (s : Events ε π θ) (e : ε) (time : Nat) : Outcome (Events ε π θ) := do
  let (clock, wake) ← s.clock.startAt fuel e time
  return { s with clock := clock }.emit (.wake wake)

def startIn (fuel : Nat) (s : Events ε π θ) (e : ε) (time : Nat) : Outcome (Events ε π θ) := do
  let (clock, wake) ← s.clock.startIn fuel e time
  return { s with clock := clock }.emit (.wake wake)

def dequeue (fuel : Nat) (s : Events ε π θ) (e : ε) : Outcome (Events ε π θ) := do
  let clock ← s.clock.dequeue fuel e
  return { s with clock := clock }

/-- A change of the timing of a queued event could damage the clock queue. -/
def dequeueQueued (fuel : Nat) (s : Events ε π θ) (e : ε) : Outcome (Events ε π θ) :=
  if s.clock.queued e then s.dequeue fuel e else .ok s

/-- The start of a periodic timing: the offset, or the next time that matches it if it is over. -/
def configuredStart (now period offset : Nat) : Nat :=
  if offset < now then
    if 0 < period then nextPeriod offset period now % 2 ^ 64 else now
  else offset

def configurePeriodicTiming (s : Events ε π θ) (e : ε) (period offset : Nat) : Events ε π θ :=
  { s with
    clock := s.clock.setNextActivation e (configuredStart s.clock.time period offset) }.setEvent e
      { s.event e with
        period_ms := period
        periodical := 0 < period
        configured := 0 < period }

def setPeriodicTiming (fuel : Nat) (s : Events ε π θ) (e : ε) (period offset : Nat) :
    Outcome (Events ε π θ) := do
  let s ← s.dequeueQueued fuel e
  let s := s.configurePeriodicTiming e period offset
  let s := s.setEvent e { s.event e with periodicSchedule := none }
  s.startAt fuel e (s.clock.nextActivation_ms e)

def stop (fuel : Nat) (s : Events ε π θ) (e : ε) : Outcome (Events ε π θ) := do
  let s ← s.dequeue fuel e
  return s.setEvent e { s.event e with configured := false, periodicSchedule := none }

def setPeriodicSchedule (fuel : Nat) (s : Events ε π θ) (e : ε) (period offset : Nat)
    (schedule : π) : Outcome (Events ε π θ) := do
  let s ← s.dequeueQueued fuel e
  let s := s.setEvent e { s.event e with periodicSchedule := some schedule }
  if (s.schedules.schedule schedule).triggers ≠ none then
    let s := s.configurePeriodicTiming e period offset
    -- the first step to a trigger adds the period again
    let start := (2 ^ 64 + s.clock.nextActivation_ms e - period) % 2 ^ 64
    let schedules := s.schedules.setSchedule schedule
      { s.schedules.schedule schedule with startTimeOffPeriod_ms := start, period_ms := period }
    let (schedules, nextTriggerOffset) ← schedules.stepToNextTriggerOffset schedule
    let s := { s with schedules := schedules }
    if nextTriggerOffset < period then s.startAt fuel e nextTriggerOffset
    else s.stop fuel e
  else return s.setEvent e { s.event e with periodicSchedule := none }

def setRelativeTiming (fuel : Nat) (s : Events ε π θ) (e : ε) (delay : Nat) :
    Outcome (Events ε π θ) := do
  let s ← s.dequeueQueued fuel e
  return s.setEvent e { s.event e with periodical := false, period_ms := delay, configured := true }

def trigger (fuel : Nat) (s : Events ε π θ) (e : ε) (time : Nat) : Outcome (Events ε π θ) := do
  if (s.event e).configured then return s
  let s ← s.dequeueQueued fuel e
  if time = 0 then return if s.shallFire e then s.emit (.push e) else s
  else s.startIn fuel e time

def reset (fuel : Nat) (s : Events ε π θ) (e : ε) : Outcome (Events ε π θ) := do
  if (s.event e).configured && !(s.event e).periodical then
    let s ← s.dequeueQueued fuel e
    s.startIn fuel e (s.event e).period_ms
  else return s

def pushTriggers (fuel : Nat) (s : Events ε π θ) (p : π) : Outcome (Events ε π θ) := do
  let (schedules, pushed) ← s.schedules.pushTriggers fuel p
  return pushed.foldl (fun s t => s.emit (.pushTrigger t)) { s with schedules := schedules }

/-- The next start of a periodic event. -/
def restart (fuel : Nat) (s : Events ε π θ) (e : ε) : Outcome (Events ε π θ) :=
  match (s.event e).periodicSchedule with
  | none => s.startAt fuel e ((s.clock.nextActivation_ms e + (s.event e).period_ms) % 2 ^ 64)
  | some p => do
      let s ← s.pushTriggers fuel p
      let (schedules, time) ← s.schedules.stepToNextTriggerOffset p
      { s with schedules := schedules }.startAt fuel e time

def handle (fuel : Nat) (s : Events ε π θ) (e : ε) : Outcome (Events ε π θ) := do
  let s := s.emit (.handle e)
  let s ← if (s.event e).periodical then s.restart fuel e else pure s
  return if s.shallFire e then s.emit (.push e) else s

/-- The loop of the scheduler over the pending events. -/
def handleEvents : Nat → Events ε π θ → Outcome (Events ε π θ)
  | 0, _ => .error .outOfFuel
  | fuel + 1, s => do
      let (clock, event) ← s.clock.readFirstPending fuel
      let s := { s with clock := clock }
      match event with
      | none => return s
      | some e =>
          let s ← s.handle fuel e
          handleEvents fuel s

def add (fuel : Nat) (s : Events ε π θ) (schedule : π) (trigger : θ) :
    Outcome (Events ε π θ) := do
  let schedules ← s.schedules.sortIn fuel schedule trigger
  return { s with schedules := schedules }

def perform (fuel : Nat) (s : Events ε π θ) : EventCall ε π θ → Outcome (Events ε π θ)
  | .setPeriodicTiming e period offset => s.setPeriodicTiming fuel e period offset
  | .setPeriodicSchedule e period offset schedule =>
      s.setPeriodicSchedule fuel e period offset schedule
  | .setRelativeTiming e delay => s.setRelativeTiming fuel e delay
  | .trigger e time => s.trigger fuel e time
  | .stop e => s.stop fuel e
  | .reset e => s.reset fuel e
  | .add schedule trigger => s.add fuel schedule trigger
  | .handleEvents => s.handleEvents fuel
  | .advance span => .ok { s with clock := { s.clock with time := s.clock.time + span } }

end Events

end TaskingFramework
