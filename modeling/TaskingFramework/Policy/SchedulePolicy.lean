import Mathlib.Data.List.Basic

/-!
# Scheduling policies

The interface class `SchedulePolicy` has two methods, `queue` and `nextTask`. A policy is modelled
over its own state; the run queue keeps its links inside the tasks, so the links of tasks outside
the run queue are part of that state too.
-/

namespace TaskingFramework

/-- A call of one of the two methods of a scheduling policy. -/
inductive PolicyCall (τ : Type*) where
  | queue (task : τ)
  | nextTask
  deriving DecidableEq

/-- The methods of a policy over its state `σ`. `queue` answers whether the run queue was empty,
`nextTask` answers the removed task or null. -/
structure SchedulePolicy (τ σ : Type*) where
  queue : τ → σ → σ × Bool
  nextTask : σ → σ × Option τ

namespace SchedulePolicy

variable {τ σ : Type*} (P : SchedulePolicy τ σ)

/-- The state after a sequence of calls. -/
def after : σ → List (PolicyCall τ) → σ
  | s, [] => s
  | s, .queue task :: calls => after (P.queue task s).1 calls
  | s, .nextTask :: calls => after (P.nextTask s).1 calls

/-- What the `nextTask` calls of a sequence return, in order. -/
def returned : σ → List (PolicyCall τ) → List (Option τ)
  | _, [] => []
  | s, .queue task :: calls => returned (P.queue task s).1 calls
  | s, .nextTask :: calls => (P.nextTask s).2 :: returned (P.nextTask s).1 calls

end SchedulePolicy

/-- A task is queued only while it is not in the run queue, by the contents `Q` keeps. -/
def QueuedOnce {τ : Type*} (Q : SchedulePolicy τ (List τ)) : List τ → List (PolicyCall τ) → Prop
  | _, [] => True
  | s, .queue task :: calls => task ∉ s ∧ QueuedOnce Q (Q.queue task s).1 calls
  | s, .nextTask :: calls => QueuedOnce Q (Q.nextTask s).1 calls

end TaskingFramework
