import TaskingFramework.Fifo.Delivery
import TaskingFramework.Task.Executions

/-!
# A task that reads a FIFO

A FIFO is the channel of the only input of a task, which reads it through a reader of its own. Threads
push the FIFO and notify the input inside `m_fifo_mutex`. The executor that starts the task synchronizes
the reader, with the notifications of the input as volume. A push by value is an allocation, which fails
if the FIFO is full, and a push of the allocated element.
-/

set_option linter.unusedSectionVars false

namespace TaskingFramework

open Foundation

/-- The thread inside `Fifo::push` that has pushed an element, and where it stands. -/
inductive FifoMutex (ν : Type) where
  | free
  | pushed (thread : ν)   -- before `Channel::push`
  | notified (thread : ν) -- inside or behind `notifyInput`
  deriving DecidableEq

structure Pipeline (κ δ ρ τ σ ε γ ν : Type) where
  system : System τ σ ε γ ν
  channel : Journaled κ δ ρ τ
  m_fifo_mutex : FifoMutex ν
  /-- The notifications that the executor has read for its `synchronizeStart`. -/
  volume : ε → Option Nat
  /-- The runs of the task that have begun. -/
  runs : Nat

inductive PipelineAction (δ τ ε ν : Type) where
  | system (action : SystemAction τ ε ν)
  | associateReader
  | allocate
  | release (data : δ)
  | push (thread : ν) (data : δ)
  | notifyInput (thread : ν)
  | leave (thread : ν)
  | getNotifications (executor : ε)
  | synchronizeStart (executor : ε)
  | readerPop (executor : ε)
  | readerRelease (executor : ε) (data : δ)
  | readerReleaseAll (executor : ε)
  deriving DecidableEq

namespace Pipeline

variable {κ δ ρ τ σ ε γ ν : Type} [DecidableEq κ] [DecidableEq δ] [DecidableEq ρ] [DecidableEq τ]
  [DecidableEq σ] [DecidableEq ε] [DecidableEq γ] [DecidableEq ν]

section Model

variable (L : Layout τ σ ε γ) (t : τ) (r : ρ)

/-- After `start(true)`, without any reader or push. -/
def start (inputs : τ → InputArray) (schedulers : List σ) (buffer : FifoBuffer κ δ) (task : ρ → τ) :
    Pipeline κ δ ρ τ σ ε γ ν where
  system := System.started L inputs schedulers
  channel := Journaled.start buffer task
  m_fifo_mutex := .free
  volume _ := none
  runs := 0

/-- An action of tasks and threads, where it is enabled. -/
def act (s : Pipeline κ δ ρ τ σ ε γ ν) (a : SystemAction τ ε ν) : Pipeline κ δ ρ τ σ ε γ ν :=
  { s with system := (s.system.step L a).getD s.system }

def use (fuel : Nat) (s : Pipeline κ δ ρ τ σ ε γ ν) (c : FifoCall δ ρ τ) :
    Outcome (Pipeline κ δ ρ τ σ ε γ ν × FifoAnswer δ) := do
  let (channel, a) ← s.channel.call fuel c
  return ({ s with channel := channel }, a)

def getNotifications (s : Pipeline κ δ ρ τ σ ε γ ν) : Nat :=
  match (s.system.task t).inputs.inputs[0]? with
  | some x => x.notifications
  | none => 0

def call (fuel : Nat) (s : Pipeline κ δ ρ τ σ ε γ ν) :
    PipelineAction δ τ ε ν → Outcome (Pipeline κ δ ρ τ σ ε γ ν × FifoAnswer δ)
  | .system a => .ok (s.act L a, .nothing)
  | .associateReader => s.use fuel (.associateReader r)
  | .allocate => s.use fuel .allocate
  | .release d => s.use fuel (.release d)
  | .push v d => do
      let (s, a) ← s.use fuel (.push d)
      return ({ s with m_fifo_mutex := if a = .pushed true then .pushed v else .free }, a)
  | .notifyInput v => .ok ({ s.act L (.notify v t 0) with m_fifo_mutex := .notified v }, .nothing)
  | .leave _ => .ok ({ s with m_fifo_mutex := .free }, .nothing)
  | .getNotifications e =>
      .ok ({ s with volume := Function.update s.volume e (some (s.getNotifications t)) }, .nothing)
  | .synchronizeStart e => do
      let (s, a) ← s.use fuel (.synchronize t ((s.volume e).getD 0))
      let s := s.act L (.synchronizeStart e)
      return ({ s with volume := Function.update s.volume e none, runs := s.runs + 1 }, a)
  | .readerPop _ => s.use fuel (.readerPop r)
  | .readerRelease _ d => s.use fuel (.readerRelease r d)
  | .readerReleaseAll _ => s.use fuel (.readerReleaseAll r)

/-- The FIFO alone notifies the input, a start of the task is one with the reader, and the task has
released what it popped when it returns. -/
def Admits (s : Pipeline κ δ ρ τ σ ε γ ν) : SystemAction τ ε ν → Prop
  | .notify _ u _ => u ≠ t
  | .synchronizeStart e => s.system.executor e ≠ .fetched t
  | .executed _ u => u = t → (s.channel.fifo.reader r).allocated_elements = []
  | _ => True

/-- What can happen next. The reader is associated before the first push, and only the running task
uses it. -/
def Legal (s : Pipeline κ δ ρ τ σ ε γ ν) : PipelineAction δ τ ε ν → Prop
  | .system a => (s.system.step L a).isSome = true ∧ s.Admits t r a
  | .associateReader => s.channel.journal.pushed = 0
  | .allocate | .release _ => s.m_fifo_mutex = .free
  | .push v _ => s.m_fifo_mutex = .free ∧ s.system.notifier v = .idle ∧
      (s.channel.fifo.reader r).fifo = true
  | .notifyInput v => s.m_fifo_mutex = .pushed v ∧ (s.system.step L (.notify v t 0)).isSome = true
  | .leave v => s.m_fifo_mutex = .notified v ∧ s.system.notifier v = .idle
  | .getNotifications e => s.system.executor e = .fetched t
  | .synchronizeStart e => s.m_fifo_mutex = .free ∧ (s.volume e).isSome = true ∧
      (s.system.step L (.synchronizeStart e)).isSome = true
  | .readerPop e | .readerRelease e _ | .readerReleaseAll e => s.system.executor e = .executing t

end Model

end Pipeline

end TaskingFramework
