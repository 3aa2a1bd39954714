import TaskingFramework.Task.Executions

/-!
# Single and double buffers

A buffer channel holds `bufferSize` objects. The sender copies or writes into the back object,
switches over and pushes; a reference of `read` leads to the object that was sent last.
`SingleBuffer` is the channel with one object, `DoubleBuffer` the one with two. An object consists
of words that are copied and read one by one, while the threads go on in any order.
-/

set_option linter.unusedSectionVars false

namespace TaskingFramework

open Foundation

structure SlotBuffer (α : Type) where
  data : Nat → α
  backIndex : Nat

/-- What an argument of `send` points to: an element of the buffer or something else. -/
inductive SendPointer (α : Type) where
  | element (index : Nat)
  | other (value : α)

namespace SlotBuffer

variable {α : Type} (bufferSize : Nat) (s : SlotBuffer α)

/-- Where `read` leads to. -/
def validIndex : Nat := (s.backIndex + (bufferSize - 1)) % bufferSize

def read : α := s.data (s.validIndex bufferSize)

/-- The element that `getBuffer` leads to. -/
def getBuffer : Nat := s.backIndex

def switch : SlotBuffer α := { s with backIndex := (s.backIndex + 1) % bufferSize }

def target : SendPointer α → α
  | .element index => s.data index
  | .other value => value

end SlotBuffer

/-- The elements and the first back index of `SingleBuffer`. The element is read where it is written. -/
def SingleBuffer.bufferSize : Nat := 1

def SingleBuffer.init {α : Type} (initialValue : α) : SlotBuffer α := ⟨fun _ => initialValue, 0⟩

def DoubleBuffer.bufferSize : Nat := 2

def DoubleBuffer.init {α : Type} (initialValue : α) : SlotBuffer α := ⟨fun _ => initialValue, 1⟩

/-- Where the sender stands in `send`. -/
inductive SenderPc (ω δ : Type) where
  | idle
  | copying (source : SendPointer (ω → δ)) (words : List ω) -- before the switch, the words that are left
  | switched                                                -- before `notifyInput`
  | notified                                                -- inside or behind `notifyInput`

/-- A reference from `read`, and the number of the send behind which it was taken. -/
structure Reference where
  index : Nat
  send : Nat
  deriving DecidableEq

/-- A sender on a thread of its own, the buffer, and a system with the task behind it. The last
fields are an account: the completed sends, the object for each of them and for the one under way,
and the completed executions. -/
structure Handover (ω δ τ σ ε γ ν : Type) where
  buffer : SlotBuffer (ω → δ)
  sender : SenderPc ω δ
  pointer : Option Nat          -- from the last `getBuffer`
  reference : ε → Option Reference
  system : System τ σ ε γ ν
  sent : Nat
  object : Nat → ω → δ
  executions : Nat

inductive HandoverAction (ω δ τ ε ν : Type) where
  | send (value : ω → δ)
  | sendPointer (argument : SendPointer (ω → δ))
  | copy
  | switch
  | notify
  | leave
  | getBuffer
  | write (word : ω) (value : δ)
  | read (executor : ε)
  | load (executor : ε) (word : ω) (value : δ)
  | act (action : SystemAction τ ε ν)

namespace Handover

variable {ω δ τ σ ε γ ν : Type} [DecidableEq ω] [DecidableEq τ] [DecidableEq σ] [DecidableEq ε]
  [DecidableEq γ] [DecidableEq ν]

/-- Nothing has been sent; the schedulers have been started. -/
def opened (L : Layout τ σ ε γ) (bufferSize : Nat) (buffer : SlotBuffer (ω → δ))
    (inputs : τ → InputArray) (schedulers : List σ) : Handover ω δ τ σ ε γ ν where
  buffer := buffer
  sender := .idle
  pointer := none
  reference _ := none
  system := System.started L inputs schedulers
  sent := 0
  object _ := buffer.read bufferSize
  executions := 0

/-- A word of an element is overwritten. -/
def store (s : Handover ω δ τ σ ε γ ν) (index : Nat) (word : ω) (value : δ) : Handover ω δ τ σ ε γ ν :=
  { s with buffer := { s.buffer with
      data := Function.update s.buffer.data index (Function.update (s.buffer.data index) word value) } }

/-- The call of `send` for the object behind the argument; the words that are to be copied. -/
def begin (s : Handover ω δ τ σ ε γ ν) (source : SendPointer (ω → δ)) (words : List ω) :
    Handover ω δ τ σ ε γ ν :=
  { s with
    sender := .copying source words
    object := Function.update s.object (s.sent + 1) (s.buffer.target source) }

/-- References of an execution are given up at its end. -/
def forget {τ ε ν : Type} [DecidableEq ε] (reference : ε → Option Reference) :
    SystemAction τ ε ν → ε → Option Reference
  | .executed e _ => Function.update reference e none
  | .notify _ _ _ | .check _ | .activate _ | .nextTask _ _ | .synchronizeStart _ | .finish _
  | .isExecuted _
  | .reset _ | .leave _ => reference

/-- The steps for objects of these words. The sender runs on thread `v`, and input `i` of task `t`
is associated with the buffer. -/
inductive Step (L : Layout τ σ ε γ) (bufferSize : Nat) (words : List ω) (v : ν) (t : τ) (i : Nat)
    (s : Handover ω δ τ σ ε γ ν) : HandoverAction ω δ τ ε ν → Handover ω δ τ σ ε γ ν → Prop where
  | send {value : ω → δ} (hsender : s.sender = .idle) (hv : s.system.notifier v = .idle) :
      Step L bufferSize words v t i s (.send value) (s.begin (.other value) words)
  -- an object that is the back element already is not copied
  | sendBack (hsender : s.sender = .idle) (hv : s.system.notifier v = .idle) :
      Step L bufferSize words v t i s (.sendPointer (.element s.buffer.backIndex))
        (s.begin (.element s.buffer.backIndex) [])
  | sendPointer {argument : SendPointer (ω → δ)} (hsender : s.sender = .idle)
      (hv : s.system.notifier v = .idle)
      (hargument : argument ≠ .element s.buffer.backIndex) :
      Step L bufferSize words v t i s (.sendPointer argument) (s.begin argument words)
  | copy {source : SendPointer (ω → δ)} {w : ω} {rest : List ω}
      (hsender : s.sender = .copying source (w :: rest)) :
      Step L bufferSize words v t i s .copy
        { s.store s.buffer.backIndex w (s.buffer.target source w) with sender := .copying source rest }
  | switch {source : SendPointer (ω → δ)} (hsender : s.sender = .copying source []) :
      Step L bufferSize words v t i s .switch
        { s with buffer := s.buffer.switch bufferSize, sender := .switched, sent := s.sent + 1 }
  | notify {system : System τ σ ε γ ν} (hsender : s.sender = .switched)
      (hstep : s.system.Step L (.notify v t i) system) :
      Step L bufferSize words v t i s .notify { s with system := system, sender := .notified }
  | leave (hsender : s.sender = .notified) (hv : s.system.notifier v = .idle) :
      Step L bufferSize words v t i s .leave { s with sender := .idle }
  | getBuffer : Step L bufferSize words v t i s .getBuffer { s with pointer := some s.buffer.getBuffer }
  | write {index : Nat} {word : ω} {value : δ} (hsender : s.sender = .idle)
      (hpointer : s.pointer = some index) :
      Step L bufferSize words v t i s (.write word value) (s.store index word value)
  | read {e : ε} (he : s.system.executor e = .executing t) :
      Step L bufferSize words v t i s (.read e) { s with
        reference := Function.update s.reference e (some ⟨s.buffer.validIndex bufferSize, s.sent⟩) }
  | load {e : ε} {r : Reference} {word : ω} (hr : s.reference e = some r) :
      Step L bufferSize words v t i s (.load e word (s.buffer.data r.index word)) s
  -- the other threads and all executors
  | act {a : SystemAction τ ε ν} {system : System τ σ ε γ ν}
      (hnotify : ∀ w u j, a = .notify w u j → (u, j) ≠ (t, i) ∧ (w = v → s.sender = .idle))
      (hstep : s.system.Step L a system) :
      Step L bufferSize words v t i s (.act a) { s with
        system := system
        reference := forget s.reference a
        executions := s.executions + if a.event t = .executed then 1 else 0 }

/-- The sender writes only through the pointer to the present back element, and starts to write an
object only if fewer than `bufferSize` objects wait for the end of their execution. -/
def Keeps (bufferSize : Nat) (s : Handover ω δ τ σ ε γ ν) : HandoverAction ω δ τ ε ν → Prop
  | .send _ | .sendPointer _ => s.sent < s.executions + bufferSize
  | .write _ _ => s.pointer = some s.buffer.backIndex ∧ s.sent < s.executions + bufferSize
  | .copy | .switch | .notify | .leave | .getBuffer | .read _ | .load _ _ _ | .act _ => True

end Handover

end TaskingFramework
