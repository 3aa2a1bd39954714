import TaskingFramework.Foundation.Outcome
import Mathlib.Algebra.Group.Nat.Defs
import Mathlib.Logic.Function.Basic

/-!
# Periodic schedules

A periodic schedule is a list of triggers sorted by their offsets, linked by `next`. While an event
plays it, `activeTrigger` is the trigger that is pushed next. Times are `uint64_t`.
-/

namespace TaskingFramework

open Foundation

structure PeriodicScheduleTrigger (θ : Type) where
  offsetTime : Nat
  next : Option θ

structure PeriodicScheduleImpl (θ : Type) where
  triggers : Option θ
  activeTrigger : Option θ
  startTimeOffPeriod_ms : Nat
  period_ms : Nat

def PeriodicScheduleImpl.init {θ : Type} : PeriodicScheduleImpl θ := ⟨none, none, 0, 0⟩

/-- The periodic schedules of a system and their triggers. -/
structure Schedules (π θ : Type) where
  schedule : π → PeriodicScheduleImpl θ
  trigger : θ → PeriodicScheduleTrigger θ

namespace Schedules

variable {π θ : Type} [DecidableEq π] [DecidableEq θ]

def setSchedule (s : Schedules π θ) (p : π) (schedule : PeriodicScheduleImpl θ) : Schedules π θ :=
  { s with schedule := Function.update s.schedule p schedule }

def setNext (s : Schedules π θ) (t : θ) (next : Option θ) : Schedules π θ :=
  { s with trigger := Function.update s.trigger t { s.trigger t with next := next } }

/-- The loop of `sortIn`: the trigger behind which the new one is hung. -/
def searchPrev (s : Schedules π θ) (offsetTime : Nat) : Nat → θ → Outcome θ
  | 0, _ => .error .outOfFuel
  | fuel + 1, prev =>
      match (s.trigger prev).next with
      | some following =>
          if (s.trigger following).offsetTime < offsetTime then searchPrev s offsetTime fuel following
          else .ok prev
      | none => .ok prev

def sortIn (fuel : Nat) (s : Schedules π θ) (p : π) (trigger : θ) : Outcome (Schedules π θ) :=
  match (s.schedule p).triggers with
  | none =>
      .ok ((s.setSchedule p { s.schedule p with triggers := some trigger }).setNext trigger none)
  | some triggers =>
      if (s.trigger trigger).offsetTime < (s.trigger triggers).offsetTime then
        .ok ((s.setNext trigger (some triggers)).setSchedule p
          { s.schedule p with triggers := some trigger })
      else do
        let prev ← searchPrev s (s.trigger trigger).offsetTime fuel triggers
        let s := s.setNext trigger (s.trigger prev).next
        return s.setNext prev (some trigger)

/-- The loop of `pushTriggers` behind the push of `active`: the pushed triggers, the last of them is
the active one. -/
def pushFollowing (s : Schedules π θ) : Nat → θ → Outcome (θ × List θ)
  | 0, _ => .error .outOfFuel
  | fuel + 1, active =>
      match (s.trigger active).next with
      | some following =>
          if (s.trigger active).offsetTime = (s.trigger following).offsetTime then do
            let (last, pushed) ← pushFollowing s fuel following
            return (last, following :: pushed)
          else .ok (active, [])
      | none => .ok (active, [])

/-- The answer lists the triggers in the order of their pushes. -/
def pushTriggers (fuel : Nat) (s : Schedules π θ) (p : π) : Outcome (Schedules π θ × List θ) := do
  let active ← deref (s.schedule p).activeTrigger
  let (last, pushed) ← pushFollowing s fuel active
  return (s.setSchedule p { s.schedule p with activeTrigger := some last }, active :: pushed)

def stepToNextTriggerOffset (s : Schedules π θ) (p : π) : Outcome (Schedules π θ × Nat) := do
  let schedule := s.schedule p
  let following := schedule.activeTrigger.bind fun active => (s.trigger active).next
  -- at the end of the list, and in the first run, the list starts again in the next period
  let schedule :=
    match following with
    | some active => { schedule with activeTrigger := some active }
    | none => { schedule with
        activeTrigger := schedule.triggers
        startTimeOffPeriod_ms := (schedule.startTimeOffPeriod_ms + schedule.period_ms) % 2 ^ 64 }
  let active ← deref schedule.activeTrigger
  return (s.setSchedule p schedule,
    (schedule.startTimeOffPeriod_ms + (s.trigger active).offsetTime) % 2 ^ 64)

end Schedules

end TaskingFramework
