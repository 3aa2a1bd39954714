import TaskingFramework.Foundation.Runs
import Mathlib.Logic.Function.Basic
import Mathlib.Data.List.FinRange

/-!
# Linux execution model

`SchedulerExecutionModel` runs tasks in executor threads. An executor without work parks itself in
the list `freeExecutors` and waits on its signaler; `signal` takes one executor out of that list
and wakes it up. Every action below is one critical section, or the code between two of them.
The run queue stands for any policy that hands out what was queued and null when nothing is left.
The `running` flags are only cleared by destructors and are left out.
-/

namespace TaskingFramework

/-- A `Signaler`: its flag `wakeUp`, and whether the condition variable was signalled while its
thread was waiting on it. -/
structure Signaler where
  wakeUp : Bool
  signalled : Bool
  deriving DecidableEq

namespace Signaler

/-- Set the flag; the condition variable only reaches a thread that waits at this moment. -/
def signal (waits : Bool) (s : Signaler) : Signaler := ⟨true, s.signalled || waits⟩

/-- A woken thread leaves the loop in `wait` when the flag is set and clears it, else it waits
again. The answer tells whether the loop is left. -/
def resume (s : Signaler) : Option (Signaler × Bool) :=
  if s.signalled then some (⟨false, false⟩, s.wakeUp) else none

private theorem resume_eq_some {s : Signaler} {r : Signaler × Bool} (h : s.resume = some r) :
    s.signalled = true ∧ r = (⟨false, false⟩, s.wakeUp) := by
  simp only [resume, Option.ite_none_right_eq_some, Option.some.injEq] at h
  exact ⟨h.1, h.2.symm⟩

end Signaler

/-- Where an executor stands in `executorThread`. -/
inductive ExecutorPc (τ : Type*) where
  | waiting              -- in `signaler.wait()`, its mutex released
  | checking             -- about to ask `clock.isPending()`
  | handling             -- inside `handleEvents`
  | fetching             -- about to call `policy.nextTask()`
  | executing (task : τ) -- inside `execute`
  | closing              -- `nextTask` returned null, not yet in `freeExecutors`
  | enlisted             -- in `freeExecutors`, still holding the mutex of its signaler
  deriving DecidableEq

/-- Where a thread stands that calls `signal`. -/
inductive CallerPc (n : Nat) where
  | idle
  | queued                    -- behind `policy.queue`, before `signal`
  | requested                 -- before a `signal` for pending events
  | chosen (executor : Fin n) -- took this executor out of `freeExecutors`
  deriving DecidableEq

/-- Where the thread stands that may call `waitUntilEmpty`. -/
inductive WaiterPc where
  | outside
  | waiting (numberOfOccupiedExecutors : Nat)
  deriving DecidableEq

/-- `n` executors; callers of `signal` are the external threads `κ` and the executors, which
activate tasks while they execute a task or handle events. -/
structure ExecutionModel (n : Nat) (τ κ : Type*) where
  runQueue : List τ
  freeExecutors : List (Fin n)
  pc : Fin n → ExecutorPc τ
  signaler : Fin n → Signaler
  caller : κ ⊕ Fin n → CallerPc n
  emptySignal : Signaler
  waiter : WaiterPc

inductive ExecutionAction (n : Nat) (τ κ : Type*) where
  | queue (caller : κ ⊕ Fin n) (task : τ)
  | request (caller : κ ⊕ Fin n)
  | signal (caller : κ ⊕ Fin n)
  | wakeUp (caller : κ ⊕ Fin n)
  | wait (executor : Fin n)
  | resume (executor : Fin n)
  | isPending (executor : Fin n) (pending : Bool)
  | handled (executor : Fin n)
  | nextTask (executor : Fin n) (task : Option τ)
  | executed (executor : Fin n)
  | enlist (executor : Fin n)
  | waitUntilEmpty
  | resumeWaiter
  deriving DecidableEq

namespace ExecutionModel

variable {n : Nat} {τ κ : Type*}

/-- `startExecutors` puts the executors into the free list one after the other. -/
def init : ExecutionModel n τ κ where
  runQueue := []
  freeExecutors := (List.finRange n).reverse
  pc _ := .waiting
  signaler _ := ⟨false, false⟩
  caller _ := .idle
  emptySignal := ⟨false, false⟩
  waiter := .outside

/-- An executor calls into the framework only from a task or an event handler. -/
def mayActivate (s : ExecutionModel n τ κ) : κ ⊕ Fin n → Bool
  | .inl _ => true
  | .inr e =>
      match s.pc e with
      | .handling | .executing _ => true
      | _ => false

variable [DecidableEq τ] [DecidableEq κ]

def setPc (s : ExecutionModel n τ κ) (e : Fin n) (pc : ExecutorPc τ) : ExecutionModel n τ κ :=
  { s with pc := Function.update s.pc e pc }

def setCaller (s : ExecutionModel n τ κ) (c : κ ⊕ Fin n) (pc : CallerPc n) :
    ExecutionModel n τ κ :=
  { s with caller := Function.update s.caller c pc }

def setSignaler (s : ExecutionModel n τ κ) (e : Fin n) (signaler : Signaler) :
    ExecutionModel n τ κ :=
  { s with signaler := Function.update s.signaler e signaler }

/-- One action, where it is enabled. -/
def step (s : ExecutionModel n τ κ) : ExecutionAction n τ κ → Option (ExecutionModel n τ κ)
  | .queue c task =>
      if s.caller c = .idle ∧ s.mayActivate c then
        some { s.setCaller c .queued with runQueue := s.runQueue ++ [task] }
      else none
  | .request c =>
      if s.caller c = .idle ∧ s.mayActivate c then some (s.setCaller c .requested) else none
  | .signal c =>
      if s.caller c = .queued ∨ s.caller c = .requested then
        match s.freeExecutors with
        | e :: rest => some { s.setCaller c (.chosen e) with freeExecutors := rest }
        | [] => some (s.setCaller c .idle) -- no executor free, the request is dropped
      else none
  | .wakeUp c =>
      match s.caller c with
      | .chosen e =>
          -- an enlisted executor holds the mutex of its signaler until it waits
          if s.pc e = .enlisted then none
          else some ((s.setSignaler e ((s.signaler e).signal (s.pc e = .waiting))).setCaller c .idle)
      | _ => none
  | .wait e => if s.pc e = .enlisted then some (s.setPc e .waiting) else none
  | .resume e =>
      if s.pc e = .waiting then
        (s.signaler e).resume.map fun r =>
          (s.setSignaler e r.1).setPc e (if r.2 then .checking else .waiting)
      else none
  | .isPending e pending =>
      if s.pc e = .checking then some (s.setPc e (if pending then .handling else .fetching))
      else none
  | .handled e =>
      if s.pc e = .handling ∧ s.caller (.inr e) = .idle then some (s.setPc e .fetching) else none
  | .nextTask e (some task) =>
      if s.pc e = .fetching ∧ task ∈ s.runQueue then
        some { s.setPc e (.executing task) with runQueue := s.runQueue.erase task }
      else none
  | .nextTask e none =>
      if s.pc e = .fetching ∧ s.runQueue = [] then some (s.setPc e .closing) else none
  | .executed e =>
      match s.pc e with
      | .executing _ => if s.caller (.inr e) = .idle then some (s.setPc e .checking) else none
      | _ => none
  | .enlist e =>
      if s.pc e = .closing then
        some { s.setPc e .enlisted with
          freeExecutors := e :: s.freeExecutors
          emptySignal := s.emptySignal.signal (s.waiter ≠ .outside) }
      else none
  | .waitUntilEmpty =>
      if s.waiter = .outside then
        let occupied := n - s.freeExecutors.length
        some { s with waiter := if occupied = 0 then .outside else .waiting occupied }
      else none
  | .resumeWaiter =>
      match s.waiter with
      | .waiting occupied =>
          s.emptySignal.resume.map fun r =>
            let occupied := if r.2 then occupied - 1 else occupied
            { s with
              emptySignal := r.1
              waiter := if occupied = 0 then .outside else .waiting occupied }
      | .outside => none

/-- The interleavings of the actions. -/
def Step (s : ExecutionModel n τ κ) (a : ExecutionAction n τ κ) (t : ExecutionModel n τ κ) : Prop :=
  s.step a = some t

/-- What a step does: where the action is enabled, and what it leads to. -/
inductive Acts (s : ExecutionModel n τ κ) : ExecutionAction n τ κ → ExecutionModel n τ κ → Prop where
  | queue {c : κ ⊕ Fin n} {task : τ} (hc : s.caller c = .idle) (hmay : s.mayActivate c = true) :
      Acts s (.queue c task) { s.setCaller c .queued with runQueue := s.runQueue ++ [task] }
  | request {c : κ ⊕ Fin n} (hc : s.caller c = .idle) (hmay : s.mayActivate c = true) :
      Acts s (.request c) (s.setCaller c .requested)
  | choose {c : κ ⊕ Fin n} {e : Fin n} {rest : List (Fin n)}
      (hc : s.caller c = .queued ∨ s.caller c = .requested) (hfree : s.freeExecutors = e :: rest) :
      Acts s (.signal c) { s.setCaller c (.chosen e) with freeExecutors := rest }
  | drop {c : κ ⊕ Fin n} (hc : s.caller c = .queued ∨ s.caller c = .requested)
      (hfree : s.freeExecutors = []) : Acts s (.signal c) (s.setCaller c .idle)
  | wakeUp {c : κ ⊕ Fin n} {e : Fin n} (hc : s.caller c = .chosen e) (hpc : s.pc e ≠ .enlisted) :
      Acts s (.wakeUp c)
        ((s.setSignaler e ((s.signaler e).signal (s.pc e = .waiting))).setCaller c .idle)
  | wait {e : Fin n} (hpc : s.pc e = .enlisted) : Acts s (.wait e) (s.setPc e .waiting)
  | resume {e : Fin n} (hpc : s.pc e = .waiting) (hsignalled : (s.signaler e).signalled = true) :
      Acts s (.resume e) ((s.setSignaler e ⟨false, false⟩).setPc e
        (if (s.signaler e).wakeUp then .checking else .waiting))
  | isPending {e : Fin n} {pending : Bool} (hpc : s.pc e = .checking) :
      Acts s (.isPending e pending) (s.setPc e (if pending then .handling else .fetching))
  | handled {e : Fin n} (hpc : s.pc e = .handling) (hc : s.caller (.inr e) = .idle) :
      Acts s (.handled e) (s.setPc e .fetching)
  | nextTask {e : Fin n} {task : τ} (hpc : s.pc e = .fetching) (hq : task ∈ s.runQueue) :
      Acts s (.nextTask e (some task))
        { s.setPc e (.executing task) with runQueue := s.runQueue.erase task }
  | noTask {e : Fin n} (hpc : s.pc e = .fetching) (hq : s.runQueue = []) :
      Acts s (.nextTask e none) (s.setPc e .closing)
  | executed {e : Fin n} {task : τ} (hpc : s.pc e = .executing task)
      (hc : s.caller (.inr e) = .idle) : Acts s (.executed e) (s.setPc e .checking)
  | enlist {e : Fin n} (hpc : s.pc e = .closing) :
      Acts s (.enlist e) { s.setPc e .enlisted with
        freeExecutors := e :: s.freeExecutors
        emptySignal := s.emptySignal.signal (s.waiter ≠ .outside) }
  | waitUntilEmpty (hwaiter : s.waiter = .outside) :
      Acts s .waitUntilEmpty { s with
        waiter := if n - s.freeExecutors.length = 0 then .outside
          else .waiting (n - s.freeExecutors.length) }
  | resumeWaiter {k : Nat} (hwaiter : s.waiter = .waiting k)
      (hsignalled : s.emptySignal.signalled = true) :
      Acts s .resumeWaiter { s with
        emptySignal := ⟨false, false⟩
        waiter := if (if s.emptySignal.wakeUp then k - 1 else k) = 0 then .outside
          else .waiting (if s.emptySignal.wakeUp then k - 1 else k) }

theorem step_acts {s t : ExecutionModel n τ κ} {a : ExecutionAction n τ κ} (h : Step s a t) :
    s.Acts a t := by
  cases a with
  | queue c task =>
      simp only [Step, step, Option.ite_none_right_eq_some, Option.some.injEq] at h
      rcases h with ⟨⟨hc, hmay⟩, rfl⟩
      exact .queue hc hmay
  | request c =>
      simp only [Step, step, Option.ite_none_right_eq_some, Option.some.injEq] at h
      rcases h with ⟨⟨hc, hmay⟩, rfl⟩
      exact .request hc hmay
  | signal c =>
      simp only [Step, step, Option.ite_none_right_eq_some] at h
      rcases h with ⟨hc, h⟩
      cases hfree : s.freeExecutors with
      | cons e rest =>
          simp only [hfree, Option.some.injEq] at h
          subst t
          exact .choose hc hfree
      | nil =>
          simp only [hfree, Option.some.injEq] at h
          subst t
          exact .drop hc hfree
  | wakeUp c =>
      cases hc : s.caller c with
      | chosen e =>
          simp only [Step, step, hc, Option.ite_none_left_eq_some, Option.some.injEq] at h
          rcases h with ⟨hpc, rfl⟩
          exact .wakeUp hc hpc
      | idle | queued | requested => simp [Step, step, hc] at h
  | wait e =>
      simp only [Step, step, Option.ite_none_right_eq_some, Option.some.injEq] at h
      rcases h with ⟨hpc, rfl⟩
      exact .wait hpc
  | resume e =>
      simp only [Step, step, Option.ite_none_right_eq_some, Option.map_eq_some_iff] at h
      rcases h with ⟨hpc, r, hr, rfl⟩
      rcases Signaler.resume_eq_some hr with ⟨hsignalled, rfl⟩
      exact .resume hpc hsignalled
  | isPending e pending =>
      simp only [Step, step, Option.ite_none_right_eq_some, Option.some.injEq] at h
      rcases h with ⟨hpc, rfl⟩
      exact .isPending hpc
  | handled e =>
      simp only [Step, step, Option.ite_none_right_eq_some, Option.some.injEq] at h
      rcases h with ⟨⟨hpc, hc⟩, rfl⟩
      exact .handled hpc hc
  | nextTask e task =>
      cases task with
      | none =>
          simp only [Step, step, Option.ite_none_right_eq_some, Option.some.injEq] at h
          rcases h with ⟨⟨hpc, hq⟩, rfl⟩
          exact .noTask hpc hq
      | some task =>
          simp only [Step, step, Option.ite_none_right_eq_some, Option.some.injEq] at h
          rcases h with ⟨⟨hpc, hq⟩, rfl⟩
          exact .nextTask hpc hq
  | executed e =>
      cases hpc : s.pc e with
      | executing task =>
          simp only [Step, step, hpc, Option.ite_none_right_eq_some, Option.some.injEq] at h
          rcases h with ⟨hc, rfl⟩
          exact .executed hpc hc
      | waiting | checking | handling | fetching | closing | enlisted =>
          simp [Step, step, hpc] at h
  | enlist e =>
      simp only [Step, step, Option.ite_none_right_eq_some, Option.some.injEq] at h
      rcases h with ⟨hpc, rfl⟩
      exact .enlist hpc
  | waitUntilEmpty =>
      simp only [Step, step, Option.ite_none_right_eq_some, Option.some.injEq] at h
      rcases h with ⟨hwaiter, rfl⟩
      exact .waitUntilEmpty hwaiter
  | resumeWaiter =>
      cases hwaiter : s.waiter with
      | outside => simp [Step, step, hwaiter] at h
      | waiting k =>
          simp only [Step, step, hwaiter, Option.map_eq_some_iff] at h
          rcases h with ⟨r, hr, rfl⟩
          rcases Signaler.resume_eq_some hr with ⟨hsignalled, rfl⟩
          exact .resumeWaiter hwaiter hsignalled

end ExecutionModel

end TaskingFramework
