import TaskingFramework.Event.Periodic
import TaskingFramework.Task.Executions

/-!
# Events and the tasks behind them

The events with their clock, the tasks, and the lists of inputs that are associated with the events.
Every thread inside `handleEvents` reads a pending event, handles it, which may start it again, and
notifies the inputs of its list one after the other; only then it reads the next one. An action is
one critical section of the clock or of a task, so that several threads handle events, notify inputs
and execute tasks in any order. The lists do not change meanwhile.
-/

set_option linter.unusedSectionVars false

namespace TaskingFramework

open Foundation

/-- Where a thread stands in `handleEvents`. -/
inductive HandlerPc (η τ : Type) where
  | idle
  | handling (event : η)             -- behind `readFirstPending`, before `handle`
  | pushing (inputs : List (τ × Nat)) -- inside `push`, the rest of the list
  deriving DecidableEq

/-- Events `η`; threads `ν` handle them and notify inputs. -/
structure Assembly (η π θ τ σ ε γ ν : Type) where
  planned : Planned η π θ
  system : System τ σ ε γ ν
  handler : ν → HandlerPc η τ

inductive AssemblyAction (η τ ε ν : Type) where
  | configure (call : PlannedCall η)
  | advance (span : Nat)
  | readFirstPending (thread : ν) (event : η)
  | handle (thread : ν) (event : η)
  | notify (thread : ν) (task : τ) (i : Nat)
  | pushed (thread : ν)
  | act (action : SystemAction τ ε ν)

/-- What the tasks see of an action. -/
def AssemblyAction.system {η τ ε ν : Type} : AssemblyAction η τ ε ν → Option (SystemAction τ ε ν)
  | .notify v t i => some (.notify v t i)
  | .act a => some a
  | .configure _ | .advance _ | .readFirstPending _ _ | .handle _ _ | .pushed _ => none

namespace Assembly

variable {η π θ τ σ ε γ ν : Type} [DecidableEq η] [DecidableEq π] [DecidableEq θ] [DecidableEq τ]
  [DecidableEq σ] [DecidableEq ε] [DecidableEq γ] [DecidableEq ν]

/-- No event is configured; the schedulers have been started. -/
def opened (L : Layout τ σ ε γ) (time : Nat) (offsetTime : θ → Nat) (inputs : τ → InputArray)
    (schedulers : List σ) : Assembly η π θ τ σ ε γ ν :=
  ⟨Planned.init time offsetTime, System.started L inputs schedulers, fun _ => .idle⟩

def setHandler (s : Assembly η π θ τ σ ε γ ν) (v : ν) (pc : HandlerPc η τ) : Assembly η π θ τ σ ε γ ν :=
  { s with handler := Function.update s.handler v pc }

def setEvents (s : Assembly η π θ τ σ ε γ ν) (events : Events η π θ) : Assembly η π θ τ σ ε γ ν :=
  { s with planned := { s.planned with events := events } }

def setClock (s : Assembly η π θ τ σ ε γ ν) (clock : Clock η) : Assembly η π θ τ σ ε γ ν :=
  s.setEvents { s.planned.events with clock := clock }

def time (s : Assembly η π θ τ σ ε γ ν) : Nat := s.planned.events.clock.time

/-- The steps, with the inputs that are associated with each event. All times keep below the sign
bit. -/
inductive Step (L : Layout τ σ ε γ) (associated : η → List (τ × Nat)) (s : Assembly η π θ τ σ ε γ ν) :
    AssemblyAction η τ ε ν → Assembly η π θ τ σ ε γ ν → Prop where
  | configure {c : PlannedCall η} {m : Planned η π θ} (hc : ∀ span, c ≠ .tick span)
      (hm : s.planned.Step c m) : Step L associated s (.configure c) { s with planned := m }
  | advance {span : Nat} (hspan : s.time + span < 2 ^ 63) :
      Step L associated s (.advance span)
        (s.setClock { s.planned.events.clock with time := s.time + span })
  | readFirstPending {v : ν} {e : η} {clock : Clock η} (hv : s.handler v = .idle)
      (hnotifier : s.system.notifier v = .idle)
      (hret : Returns (fun fuel => s.planned.events.clock.readFirstPending fuel) (clock, some e)) :
      Step L associated s (.readFirstPending v e) ((s.setClock clock).setHandler v (.handling e))
  | handle {v : ν} {e : η} {events : Events η π θ} (hv : s.handler v = .handling e)
      (hnext : (s.planned.events.event e).periodical = true →
        s.planned.events.clock.nextActivation_ms e + (s.planned.events.event e).period_ms < 2 ^ 63)
      (hret : Returns (fun fuel => s.planned.events.handle fuel e) events) :
      Step L associated s (.handle v e) ((s.setEvents events).setHandler v
        (.pushing (if events.shallFire e then associated e else [])))
  | notify {v : ν} {t : τ} {i : Nat} {rest : List (τ × Nat)} {system : System τ σ ε γ ν}
      (hv : s.handler v = .pushing ((t, i) :: rest)) (hstep : s.system.Step L (.notify v t i) system) :
      Step L associated s (.notify v t i) ({ s with system := system }.setHandler v (.pushing rest))
  | pushed {v : ν} (hv : s.handler v = .pushing []) (hnotifier : s.system.notifier v = .idle) :
      Step L associated s (.pushed v) (s.setHandler v .idle)
  -- other inputs may be notified by any thread
  | act {a : SystemAction τ ε ν} {system : System τ σ ε γ ν}
      (hfree : ∀ v t i, a = .notify v t i → s.handler v = .idle ∧ ∀ e, (t, i) ∉ associated e)
      (hstep : s.system.Step L a system) :
      Step L associated s (.act a) { s with system := system }

end Assembly

end TaskingFramework
