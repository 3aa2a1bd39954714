import TaskingFramework.Task.Executions

/-!
# Barriers

A `Barrier` is a channel that notifies its inputs only when all expected pushes have arrived:
`startValue` of them in each round, and those announced by `increase`. The executor that resets the
task behind the barrier starts the next round, in front of the section of the input itself; the
other threads push and announce whenever `protection` is free.
-/

set_option linter.unusedSectionVars false

namespace TaskingFramework

structure Barrier where
  counter : Nat
  startValue : Nat
  deriving DecidableEq, Repr

namespace Barrier

def constructed (resetValue : Nat) : Barrier := ⟨resetValue, resetValue⟩

def increase (b : Barrier) (delta : Nat) : Barrier := { b with counter := (b.counter + delta) % 2 ^ 32 }

/-- The answer tells whether `Channel::push` is called. -/
def push (b : Barrier) : Barrier × Bool :=
  if 0 < b.counter then ({ b with counter := b.counter - 1 }, b.counter - 1 == 0) else (b, false)

def reset (b : Barrier) : Barrier := { b with counter := b.startValue }

end Barrier

/-- A barrier between sources `κ` and the tasks of a system. The last three fields are an account of
the round. -/
structure Gathering (κ τ σ ε γ ν : Type*) where
  barrier : Barrier
  protection : Option (ν × List (τ × Nat)) -- held inside `Channel::push`, with the rest of the inputs
  system : System τ σ ε γ ν
  owed : κ → Nat                           -- pushes that the source has not made yet
  fired : Bool                             -- all expected pushes have arrived
  passed : ε → Bool                        -- behind `reset` of the channel, before that of its input

inductive GatheringAction (κ τ ε ν : Type*) where
  | increase (source : κ) (delta : Nat)
  | push (thread : ν) (source : κ) (last : Bool)
  | notify (thread : ν) (task : τ) (i : Nat)
  | leave (thread : ν)
  | resetChannel (executor : ε)
  | act (action : SystemAction τ ε ν)

/-- What the tasks see of an action. -/
def GatheringAction.system {κ τ ε ν : Type*} : GatheringAction κ τ ε ν → Option (SystemAction τ ε ν)
  | .notify v t i => some (.notify v t i)
  | .act a => some a
  | .increase _ _ | .push _ _ _ | .leave _ | .resetChannel _ => none

/-- The push that completes the expected ones. -/
def GatheringAction.fires {κ τ ε ν : Type*} : GatheringAction κ τ ε ν → Bool
  | .push _ _ last => last
  | .increase _ _ | .notify _ _ _ | .leave _ | .resetChannel _ | .act _ => false

/-- The executors behind the `reset` of the channel: the next section of the reset is the one of the
input. -/
def SystemAction.passed {τ ε ν : Type*} [DecidableEq ε] (passed : ε → Bool) :
    SystemAction τ ε ν → ε → Bool
  | .reset e => Function.update passed e false
  | .notify _ _ _ | .check _ | .activate _ | .nextTask _ _ | .synchronizeStart _ | .executed _ _
  | .finish _
  | .isExecuted _ | .leave _ => passed

namespace Gathering

variable {κ τ σ ε γ ν : Type*} [DecidableEq κ] [DecidableEq τ] [DecidableEq σ] [DecidableEq ε]
  [DecidableEq γ] [DecidableEq ν]

/-- The sources know of the pushes that are expected from them; the schedulers have been started. -/
def opened (L : Layout τ σ ε γ) (startValue : Nat) (share : κ → Nat) (inputs : τ → InputArray)
    (schedulers : List σ) : Gathering κ τ σ ε γ ν where
  barrier := .constructed startValue
  protection := none
  system := System.started L inputs schedulers
  owed := share
  fired := false
  passed _ := false

/-- The steps, with the inputs that are associated with the barrier. -/
inductive Step (L : Layout τ σ ε γ) (associated : List (τ × Nat)) (share : κ → Nat)
    (s : Gathering κ τ σ ε γ ν) : GatheringAction κ τ ε ν → Gathering κ τ σ ε γ ν → Prop where
  | increase {c : κ} {delta : Nat} (hfree : s.protection = none) :
      Step L associated share s (.increase c delta)
        { s with
          barrier := s.barrier.increase delta
          owed := Function.update s.owed c (s.owed c + delta) }
  | push {v : ν} {c : κ} (hfree : s.protection = none) (hv : s.system.notifier v = .idle) :
      Step L associated share s (.push v c s.barrier.push.2)
        { s with
          barrier := s.barrier.push.1
          protection := if s.barrier.push.2 then some (v, associated) else none
          owed := Function.update s.owed c (s.owed c - 1)
          fired := s.fired || s.barrier.push.2 }
  | notify {v : ν} {t : τ} {i : Nat} {rest : List (τ × Nat)} {system : System τ σ ε γ ν}
      (hv : s.protection = some (v, (t, i) :: rest)) (hstep : s.system.Step L (.notify v t i) system) :
      Step L associated share s (.notify v t i)
        { s with system := system, protection := some (v, rest) }
  | leave {v : ν} (hv : s.protection = some (v, [])) (hnotifier : s.system.notifier v = .idle) :
      Step L associated share s (.leave v) { s with protection := none }
  | resetChannel {e : ε} {t : τ} {i : Nat} {members : List τ} (hassociated : (t, i) ∈ associated)
      (he : s.system.executor e = .resetting t (.input i) members) (hbefore : s.passed e = false)
      (hfree : s.protection = none) :
      Step L associated share s (.resetChannel e)
        { s with
          barrier := s.barrier.reset
          owed := share
          fired := false
          passed := Function.update s.passed e true }
  -- the threads outside the barrier, which may also notify other inputs
  | act {a : SystemAction τ ε ν} {system : System τ σ ε γ ν}
      (hnotify : ∀ v t i, a = .notify v t i → (t, i) ∉ associated ∧
        ∀ rest, s.protection ≠ some (v, rest))
      (hreset : ∀ e t i members, a = .reset e → s.system.executor e = .resetting t (.input i) members →
        (t, i) ∈ associated → s.passed e = true)
      (hstep : s.system.Step L a system) :
      Step L associated share s (.act a) { s with system := system, passed := a.passed s.passed }

/-- The sources keep to the account: they push what they owe, and announce more only as long as the
round is open, which a source that owes a push knows. -/
def Keeps (s : Gathering κ τ σ ε γ ν) : GatheringAction κ τ ε ν → Prop
  | .increase c delta => s.barrier.counter + delta < 2 ^ 32 ∧ (0 < s.owed c ∨ s.fired = false)
  | .push _ c _ => 0 < s.owed c
  | .notify _ _ _ | .leave _ | .resetChannel _ | .act _ => True

end Gathering

end TaskingFramework
