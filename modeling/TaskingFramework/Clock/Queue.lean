import TaskingFramework.Foundation.Outcome
import Mathlib.Logic.Function.Basic
import Mathlib.Algebra.Group.Nat.Defs
import Mathlib.Algebra.Group.Int.Defs

/-!
# Clock queue

The queue of started events of a `Clock`. Events are linked by `next`; `previous` of a future event
leads to the last event with an earlier activation time, over the whole block of events with its own
time. Times are `uint64_t`. The field `time` is what `getTime` returns; the mutex of the queue is
left out, as every operation holds it from begin to end. Loops run on fuel.
-/

namespace TaskingFramework

open Foundation

structure Clock (ε : Type) where
  time : Nat
  queueHead : Option ε
  queueTail : Option ε
  nonePendingHead : Option ε
  next : ε → Option ε
  previous : ε → Option ε
  queued : ε → Bool
  nextActivation_ms : ε → Nat

/-- What `startAt` and `startIn` do behind the critical section: signal the scheduler, start the
timer with a delay. -/
structure Wake where
  signal : Bool
  startTimer : Option Nat
  deriving DecidableEq, Repr

/-- Conversion of a `uint64_t`, or of a difference of two `int64_t`, to `int64_t`. -/
def toInt64 (x : Int) : Int := Int.bmod x (2 ^ 64)

namespace Clock

variable {ε : Type}

def empty (time : Nat) : Clock ε where
  time := time
  queueHead := none
  queueTail := none
  nonePendingHead := none
  next _ := none
  previous _ := none
  queued _ := false
  nextActivation_ms _ := 0

variable [DecidableEq ε]

def setNext (s : Clock ε) (e : ε) (p : Option ε) : Clock ε :=
  { s with next := Function.update s.next e p }

def setPrevious (s : Clock ε) (e : ε) (p : Option ε) : Clock ε :=
  { s with previous := Function.update s.previous e p }

def setQueued (s : Clock ε) (e : ε) (queued : Bool) : Clock ε :=
  { s with queued := Function.update s.queued e queued }

def setNextActivation (s : Clock ε) (e : ε) (time : Nat) : Clock ε :=
  { s with nextActivation_ms := Function.update s.nextActivation_ms e time }

/-- The loops that correct `previous` of the events from `p` on, as long as `continues` holds. -/
def correctPrevious (value : Option ε) (continues : Clock ε → ε → Bool) :
    Nat → Option ε → Clock ε → Outcome (Clock ε)
  | 0, _, _ => .error .outOfFuel
  | _ + 1, none, s => .ok s
  | fuel + 1, some e, s =>
      if continues s e then
        correctPrevious value continues fuel (s.next e) (s.setPrevious e value)
      else .ok s

/-- The search of `enqueue` along `previous` for an event that is not later than `time`. -/
def searchPrevious (s : Clock ε) (time : Nat) : Nat → Option ε → Outcome (Option ε)
  | 0, _ => .error .outOfFuel
  | _ + 1, none => .ok none
  | fuel + 1, some e =>
      if time < s.nextActivation_ms e then searchPrevious s time fuel (s.previous e)
      else .ok (some e)

/-- The event becomes the new head. -/
def setHead (s : Clock ε) (event : ε) : Clock ε :=
  { (s.setNext event s.queueHead).setPrevious event none with queueHead := some event }

/-- `enqueue` in front of the head, as all events in the queue are later. -/
def enqueueFront (fuel : Nat) (s : Clock ε) (event : ε) : Outcome (Clock ε) := do
  let s ← correctPrevious (some event) (fun s e => decide (s.previous e = none)) fuel s.queueHead s
  let s := s.setHead event
  return { s with nonePendingHead := if s.nonePendingHead ≠ none then s.queueHead else none }

/-- Hang the event behind `previousEvent`. -/
def linkBehind (s : Clock ε) (event previousEvent : ε) : Clock ε :=
  let s := s.setPrevious event
    (if s.nextActivation_ms previousEvent = s.nextActivation_ms event then s.previous previousEvent
    else some previousEvent)
  let s := s.setNext event (s.next previousEvent)
  let s := s.setNext previousEvent (some event)
  { s with nonePendingHead := if s.next event = s.nonePendingHead then some event
      else s.nonePendingHead }

/-- The last part of `enqueue`: the event is the new tail, or the events behind it are corrected. -/
def correctBehind (fuel : Nat) (s : Clock ε) (event : ε) : Outcome (Clock ε) :=
  match s.next event with
  | none => .ok { s with queueTail := some event }
  | some following =>
      correctPrevious (some event)
        (fun s' e => decide (s'.nextActivation_ms e = s.nextActivation_ms following)) fuel
        (some following) s

/-- The answer tells whether the event is the first future one. -/
def enqueue (fuel : Nat) (currentTime : Nat) (s : Clock ε) (event : ε) :
    Outcome (Clock ε × Bool) := do
  let s := (s.setQueued event true).setNext event none
  if s.queueHead = none then
    return ({ s.setPrevious event none with queueHead := some event, queueTail := some event }, true)
  match ← searchPrevious s (s.nextActivation_ms event) fuel s.queueTail with
  | none =>
      let s ← enqueueFront fuel s event
      return (s, true)
  | some previousEvent =>
      let firstFutureEvent :=
        decide (s.nextActivation_ms previousEvent ≠ s.nextActivation_ms event ∧
          s.nextActivation_ms previousEvent ≤ currentTime)
      let s ← correctBehind fuel (s.linkBehind event previousEvent) event
      return (s, firstFutureEvent)

/-- The loop of `enqueueHead`, or the new tail of an empty queue. -/
def correctHead (fuel : Nat) (s : Clock ε) (event : ε) : Outcome (Clock ε) :=
  match s.queueHead with
  | some head =>
      if s.nextActivation_ms event < s.nextActivation_ms head then
        correctPrevious (some event)
          (fun s' e => decide (s'.nextActivation_ms e = s.nextActivation_ms head)) fuel (some head) s
      else .ok s
  | none => .ok { s with queueTail := some event }

/-- The flag `queued` stays as it is. -/
def enqueueHead (fuel : Nat) (s : Clock ε) (event : ε) : Outcome (Clock ε) := do
  let s ← correctHead fuel s event
  return s.setHead event

def startAt (fuel : Nat) (s : Clock ε) (event : ε) (time : Nat) : Outcome (Clock ε × Wake) := do
  if s.queued event then
    return (s, ⟨false, none⟩)
  let s := s.setNextActivation event time
  let delay := toInt64 (toInt64 time - toInt64 s.time)
  if 0 < delay then
    let (s, first) ← enqueue fuel s.time s event
    return (s, ⟨false, if first then some delay.toNat else none⟩)
  else
    let s ← enqueueHead fuel s event
    return (s, ⟨true, none⟩)

def startIn (fuel : Nat) (s : Clock ε) (event : ε) (time : Nat) : Outcome (Clock ε × Wake) := do
  if time ≠ 0 then
    startAt fuel s event ((s.time + time) % 2 ^ 64)
  else if s.queued event then
    return (s, ⟨false, none⟩)
  else
    let s ← enqueueHead fuel (s.setNextActivation event s.time) event
    return (s, ⟨true, none⟩)

/-- Clear the members of an event that leaves the queue. -/
def clear (s : Clock ε) (event : ε) : Clock ε :=
  ((s.setQueued event false).setNext event none).setPrevious event none

/-- Clear all events from `p` on. -/
def clearAll : Nat → Option ε → Clock ε → Outcome (Clock ε)
  | 0, _, _ => .error .outOfFuel
  | _ + 1, none, s => .ok s
  | fuel + 1, some e, s =>
      clearAll fuel (s.next e) (s.clear e)

def dequeueAll (fuel : Nat) (s : Clock ε) : Outcome (Clock ε) := do
  let s := { s with nonePendingHead := none }
  let s ← clearAll fuel s.queueHead s
  return { s with queueHead := none, queueTail := none }

/-- The search of `dequeue`: whether the event is found, and the event before it. -/
def searchEvent (s : Clock ε) (event : ε) : Nat → Option ε → Option ε → Outcome (Bool × Option ε)
  | 0, _, _ => .error .outOfFuel
  | _ + 1, none, previous => .ok (false, previous)
  | fuel + 1, some current, previous =>
      if current = event then .ok (true, previous)
      else searchEvent s event fuel (s.next current) (some current)

/-- The event is the tail. -/
def unlinkTail (s : Clock ε) (current : ε) (previous : Option ε) : Outcome (Clock ε) := do
  if s.queueHead = some current then
    return { s with queueHead := none, queueTail := none }
  else
    let previous ← deref previous
    return { s with queueTail := some previous }.setNext previous none

/-- The event is not the tail: lead its predecessor around it. -/
def bypass (s : Clock ε) (current : ε) (previous : Option ε) : Outcome (Clock ε) := do
  if s.queueHead = some current then
    return { s with queueHead := s.next current }
  else
    let previous ← deref previous
    return s.setNext previous (s.next current)

/-- Take the event out of the chain, `previous` stands before it. -/
def unlink (fuel : Nat) (s : Clock ε) (current : ε) (previous : Option ε) : Outcome (Clock ε) := do
  if s.queueTail = some current then
    unlinkTail s current previous
  else
    let s ← bypass s current previous
    let following ← deref (s.next current)
    if s.nextActivation_ms current ≠ s.nextActivation_ms following then
      correctPrevious previous
        (fun s' e => decide (s'.nextActivation_ms e = s.nextActivation_ms following)) fuel
        (some following) s
    else return s

def dequeue (fuel : Nat) (s : Clock ε) (event : ε) : Outcome (Clock ε) := do
  let s := { s with
    nonePendingHead := if s.nonePendingHead = some event then s.next event else s.nonePendingHead }
  let (found, previous) ← searchEvent s event fuel s.queueHead none
  let s ← if found then unlink fuel s event previous else pure s
  return s.clear event

def isPending (s : Clock ε) : Bool :=
  match s.queueHead with
  | some head => s.nextActivation_ms head ≤ s.time
  | none => false

/-- Take the head out of the chain. Its own `previous` stays as it is. -/
def takeHead (s : Clock ε) (head : ε) : Clock ε :=
  let s := { s with
    nonePendingHead := if s.nonePendingHead = some head then s.next head else s.nonePendingHead
    queueHead := s.next head }
  (s.setQueued head false).setNext head none

/-- The last part of `readFirstPending`: the queue is empty, or the new head has no predecessor. -/
def correctFirst (fuel : Nat) (s : Clock ε) : Outcome (Clock ε) :=
  match s.queueHead with
  | none => .ok { s with queueTail := none }
  | some head =>
      if s.previous head ≠ none then
        correctPrevious none (fun s' e => decide (s'.nextActivation_ms e = s.nextActivation_ms head))
          fuel (some head) s
      else .ok s

def readFirstPending (fuel : Nat) (s : Clock ε) : Outcome (Clock ε × Option ε) := do
  match s.queueHead with
  | some head =>
      if s.nextActivation_ms head ≤ s.time then
        let s ← correctFirst fuel (s.takeHead head)
        return (s, some head)
      else return (s, none)
  | none => return (s, none)

/-- The loop of `getNextStartTime`. A later event ends it, as its activation time is not 0. -/
def searchFuture (s : Clock ε) : Nat → Option ε → Outcome (Option ε)
  | 0, _ => .error .outOfFuel
  | _ + 1, none => .ok none
  | fuel + 1, some e =>
      if s.nextActivation_ms e ≤ s.time then searchFuture s fuel (s.next e) else .ok (some e)

def getNextStartTime (fuel : Nat) (s : Clock ε) : Outcome (Clock ε × Nat) := do
  let first := if s.nonePendingHead = none then s.queueHead else s.nonePendingHead
  let found ← searchFuture s fuel first
  let nextStartTime :=
    match found with
    | some e => s.nextActivation_ms e
    | none => 0
  return ({ s with nonePendingHead := found }, nextStartTime)

end Clock

end TaskingFramework
