import TaskingFramework.Fifo.FifoGeneric

/-!
# Fifos of values

A `Fifo` manages a buffer of typed elements by a `FifoGeneric`. A push by value allocates an element
and copies the value into it. The channel of the FIFO is pushed exactly when a push succeeds.
-/

namespace TaskingFramework

open Foundation

structure Fifo (κ δ ρ τ ω : Type) where
  genericFifo : FifoGeneric κ δ ρ τ
  /-- The values behind the pointers. -/
  value : δ → ω

inductive FifoOperation (δ ω : Type) where
  | allocate
  | release (data : δ)
  | push (data : δ)
  | pushValue (data : ω)
  | pop
  deriving DecidableEq, Repr

namespace Fifo

variable {κ δ ρ τ ω : Type} [DecidableEq κ] [DecidableEq δ] [DecidableEq ρ] [DecidableEq τ]

def allocate (s : Fifo κ δ ρ τ ω) : Fifo κ δ ρ τ ω × Option δ :=
  let (fifo, element) := s.genericFifo.allocate
  ({ s with genericFifo := fifo }, element)

def release (fuel : Nat) (s : Fifo κ δ ρ τ ω) (data : δ) : Outcome (Fifo κ δ ρ τ ω) := do
  let fifo ← s.genericFifo.release fuel data 1
  return { s with genericFifo := fifo }

def push (fuel : Nat) (s : Fifo κ δ ρ τ ω) (data : δ) : Outcome (Fifo κ δ ρ τ ω × Bool) := do
  let (fifo, result) ← s.genericFifo.push fuel data
  return ({ s with genericFifo := fifo }, result)

/-- `push` of a value. -/
def pushValue (fuel : Nat) (s : Fifo κ δ ρ τ ω) (data : ω) : Outcome (Fifo κ δ ρ τ ω × Bool) :=
  let (s, target) := s.allocate
  match target with
  | none => .ok (s, false)
  | some target => push fuel { s with value := Function.update s.value target data } target

def pop (s : Fifo κ δ ρ τ ω) : Fifo κ δ ρ τ ω × Option δ :=
  let (fifo, element) := s.genericFifo.pop
  ({ s with genericFifo := fifo }, element)

def call (fuel : Nat) (s : Fifo κ δ ρ τ ω) :
    FifoOperation δ ω → Outcome (Fifo κ δ ρ τ ω × FifoAnswer δ)
  | .allocate =>
      let (s, element) := s.allocate
      .ok (s, .data element)
  | .release data => do
      let s ← s.release fuel data
      return (s, .nothing)
  | .push data => do
      let (s, result) ← s.push fuel data
      return (s, .pushed result)
  | .pushValue data => do
      let (s, result) ← s.pushValue fuel data
      return (s, .pushed result)
  | .pop =>
      let (s, element) := s.pop
      .ok (s, .data element)

end Fifo

end TaskingFramework
