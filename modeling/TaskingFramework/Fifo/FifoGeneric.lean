import TaskingFramework.Foundation.Outcome
import Mathlib.Logic.Function.Basic

/-!
# FIFO with several readers

A `FifoGeneric` with the readers that can be associated with it. `κ` are the elements of the FIFO, `δ`
the pointers to data, `ρ` the readers and `τ` the tasks. An element is in the chain of the unused, of
the allocated or of the pushed elements; the three chains share the member `next`. The bit mask of an
element tells which readers have not released it yet. The mutexes are left out, as the operations run
one after the other. The pool of links of a reader is the list of the elements that it has popped and
the number of its unused links.
-/

namespace TaskingFramework

open Foundation

structure FifoGenericReader (κ ρ τ : Type) where
  nextReader : Option ρ
  readerId : BitVec 32
  readerTask : τ
  /-- The reader is associated with the FIFO. -/
  fifo : Bool
  fifo_first : Option κ
  fifo_last : Option κ
  allocated_elements : List κ
  unusedLinks : Nat

def maximumFifoReaderLinks : Nat := 2000

def FifoGenericReader.init {κ ρ τ : Type} (task : τ) : FifoGenericReader κ ρ τ where
  nextReader := none
  readerId := 0
  readerTask := task
  fifo := false
  fifo_first := none
  fifo_last := none
  allocated_elements := []
  unusedLinks := maximumFifoReaderLinks

structure FifoGeneric (κ δ ρ τ : Type) where
  next : κ → Option κ
  data : κ → δ
  expectedReadsBitMask : κ → BitVec 32
  m_unused : Option κ
  m_allocated : Option κ
  m_fifo_first : Option κ
  m_fifo_last : Option κ
  m_lastPushed : Option δ
  m_readers : Option ρ
  m_readerBitMask : BitVec 8
  reader : ρ → FifoGenericReader κ ρ τ

inductive FifoCall (δ ρ τ : Type) where
  | allocate
  | release (data : δ)
  | push (data : δ)
  | pop
  | associateReader (reader : ρ)
  | releaseReader (reader : ρ)
  | synchronize (task : τ) (volume : Nat)
  | readerPop (reader : ρ)
  | readerRelease (reader : ρ) (data : δ)
  | readerReleaseAll (reader : ρ)
  deriving DecidableEq, Repr

inductive FifoAnswer (δ : Type) where
  | nothing
  | data (data : Option δ)
  | pushed (result : Bool)
  deriving DecidableEq, Repr

namespace FifoGeneric

variable {κ δ ρ τ : Type} [DecidableEq κ] [DecidableEq δ] [DecidableEq ρ] [DecidableEq τ]

def setNext (s : FifoGeneric κ δ ρ τ) (e : κ) (p : Option κ) : FifoGeneric κ δ ρ τ :=
  { s with next := Function.update s.next e p }

def setMask (s : FifoGeneric κ δ ρ τ) (e : κ) (mask : BitVec 32) : FifoGeneric κ δ ρ τ :=
  { s with expectedReadsBitMask := Function.update s.expectedReadsBitMask e mask }

def setReader (s : FifoGeneric κ δ ρ τ) (r : ρ) (reader : FifoGenericReader κ ρ τ) :
    FifoGeneric κ δ ρ τ :=
  { s with reader := Function.update s.reader r reader }

/-- The constructor puts the items of the buffer one by one in front of the unused ones. -/
def construct (data : κ → δ) (task : ρ → τ) (items : List κ) : FifoGeneric κ δ ρ τ :=
  items.foldl (fun s e => { s.setNext e s.m_unused with m_unused := some e })
    { next := fun _ => none
      data := data
      expectedReadsBitMask := fun _ => 0
      m_unused := none
      m_allocated := none
      m_fifo_first := none
      m_fifo_last := none
      m_lastPushed := none
      m_readers := none
      m_readerBitMask := 1
      reader := fun r => .init (task r) }

def isEmpty (s : FifoGeneric κ δ ρ τ) : Bool := s.m_fifo_first.isNone

def allocate (s : FifoGeneric κ δ ρ τ) : FifoGeneric κ δ ρ τ × Option δ :=
  match s.m_unused with
  | none => (s, none)
  | some element =>
      let s := { s with m_unused := s.next element }
      let s := (s.setNext element s.m_allocated).setMask element 1
      ({ s with m_allocated := some element }, some (s.data element))

/-- The loop of `findPrevious`. -/
def searchAllocated (s : FifoGeneric κ δ ρ τ) (data : δ) : Nat → κ → Outcome (Option κ)
  | 0, _ => .error .outOfFuel
  | fuel + 1, previous =>
      match s.next previous with
      | none => .ok none
      | some following =>
          if s.data following = data then .ok (some previous)
          else searchAllocated s data fuel following

def findPrevious (fuel : Nat) (s : FifoGeneric κ δ ρ τ) (data : δ) : Outcome (Option κ) := do
  let head ← deref s.m_allocated
  if s.data head ≠ data then searchAllocated s data fuel head else return none

/-- `release` of an allocated element, by a reader with the given id (1 without a reader). -/
def release (fuel : Nat) (s : FifoGeneric κ δ ρ τ) (data : δ) (readerId : BitVec 32) :
    Outcome (FifoGeneric κ δ ρ τ) := do
  match s.m_allocated with
  | none => return s
  | some head =>
      if s.data head = data then
        let s := s.setMask head (s.expectedReadsBitMask head &&& ~~~readerId)
        if s.expectedReadsBitMask head = 0 then
          let s := { s with m_allocated := s.next head }
          return { s.setNext head s.m_unused with m_unused := some head }
        else return s
      else
        match ← findPrevious fuel s data with
        | none => return s
        | some previous =>
            let removeItem ← deref (s.next previous)
            let s := s.setMask removeItem (s.expectedReadsBitMask removeItem &&& ~~~readerId)
            if s.expectedReadsBitMask removeItem = 0 then
              let s := s.setNext previous (s.next removeItem)
              return { s.setNext removeItem s.m_unused with m_unused := some removeItem }
            else return s

/-- The search of `releaseElement` for the element in front of `link`. -/
def searchLink (s : FifoGeneric κ δ ρ τ) (link : κ) : Nat → Option κ → Outcome (Option κ)
  | 0, _ => .error .outOfFuel
  | _ + 1, none => .ok none
  | fuel + 1, some previous =>
      if s.next previous ≠ some link then searchLink s link fuel (s.next previous)
      else .ok (some previous)

/-- Take an element that nobody expects out of the FIFO. -/
def removeElement (fuel : Nat) (s : FifoGeneric κ δ ρ τ) (link : κ) :
    Outcome (FifoGeneric κ δ ρ τ) := do
  if s.m_fifo_first = some link then
    let s := { s with m_fifo_first := s.next link }
    let s := { s.setNext link s.m_unused with m_unused := some link }
    return { s with m_fifo_last := if s.m_fifo_last = some link then none else s.m_fifo_last }
  else
    match ← searchLink s link fuel s.m_fifo_first with
    | none => .error .assertion
    | some previous =>
        let s := s.setNext previous (s.next link)
        let s := { s with
          m_fifo_last := if s.m_fifo_last = some link then some previous else s.m_fifo_last }
        return { s.setNext link s.m_unused with m_unused := some link }

def releaseElement (fuel : Nat) (s : FifoGeneric κ δ ρ τ) (link : κ) (readerId : BitVec 32) :
    Outcome (FifoGeneric κ δ ρ τ) := do
  check s.m_fifo_first.isSome
  let s := s.setMask link (s.expectedReadsBitMask link &&& ~~~readerId)
  if s.expectedReadsBitMask link = 0 then s.removeElement fuel link else return s

/-- The first part of `push`: take the element with these data out of the allocated ones. -/
def takeAllocated (fuel : Nat) (s : FifoGeneric κ δ ρ τ) (data : δ) :
    Outcome (FifoGeneric κ δ ρ τ × Option κ) := do
  match s.m_allocated with
  | none => return (s, none)
  | some head =>
      if s.data head = data then return ({ s with m_allocated := s.next head }, some head)
      else
        match ← findPrevious fuel s data with
        | none => return (s, none)
        | some previous =>
            let element ← deref (s.next previous)
            return (s.setNext previous (s.next element), some element)

/-- The second part of `push`: hang the element behind the last one. -/
def append (s : FifoGeneric κ δ ρ τ) (element : κ) (data : δ) : Outcome (FifoGeneric κ δ ρ τ) := do
  let s := s.setMask element (s.m_readerBitMask.setWidth 32)
  let s ← if s.isEmpty then pure { s with m_fifo_first := some element }
    else do
      let last ← deref s.m_fifo_last
      pure (s.setNext last (some element))
  let s := { s with m_fifo_last := some element }.setNext element none
  return { s with m_lastPushed := some data }

def push (fuel : Nat) (s : FifoGeneric κ δ ρ τ) (data : δ) :
    Outcome (FifoGeneric κ δ ρ τ × Bool) := do
  let (s, element) ← s.takeAllocated fuel data
  match element with
  | none => return (s, false)
  | some element =>
      let s ← s.append element data
      return (s, true)

/-- `pop` of the FIFO, for a FIFO without readers. -/
def pop (s : FifoGeneric κ δ ρ τ) : FifoGeneric κ δ ρ τ × Option δ :=
  match s.m_fifo_first with
  | some element =>
      if s.m_readers = none then
        let s := { s with m_fifo_first := s.next element }
        let s := { s with m_fifo_last := if s.m_fifo_first = none then none else s.m_fifo_last }
        let s := { s.setNext element s.m_allocated with m_allocated := some element }
        (s, some (s.data element))
      else (s, none)
  | none => (s, none)

/-- Whether the reader is in the list from `p` on. -/
def searchReader (s : FifoGeneric κ δ ρ τ) (r : ρ) : Nat → Option ρ → Outcome Bool
  | 0, _ => .error .outOfFuel
  | _ + 1, none => .ok false
  | fuel + 1, some checked =>
      if checked = r then .ok true else searchReader s r fuel (s.reader checked).nextReader

/-- The search for the first free bit behind the one of `readerId`. -/
def freeReaderId : Nat → BitVec 32 → BitVec 32 → Outcome (BitVec 32)
  | 0, _, _ => .error .outOfFuel
  | fuel + 1, tmpBitField, readerId =>
      let tmpBitField := tmpBitField >>> 1
      if tmpBitField &&& 1 ≠ 0 then freeReaderId fuel tmpBitField (readerId <<< 1)
      else .ok (readerId <<< 1)

/-- The id of a new reader; the first reader does not change the number of readers. -/
def newReaderId (fuel : Nat) (s : FifoGeneric κ δ ρ τ) : Outcome (BitVec 32) :=
  if s.m_readers = none then .ok 1 else freeReaderId fuel (s.m_readerBitMask.setWidth 32) 1

/-- The elements in the FIFO become visible to a new reader. -/
def expectAll (readerId : BitVec 32) :
    Nat → Option κ → FifoGeneric κ δ ρ τ → Outcome (FifoGeneric κ δ ρ τ)
  | 0, _, _ => .error .outOfFuel
  | _ + 1, none, s => .ok s
  | fuel + 1, some e, s =>
      expectAll readerId fuel (s.next e) (s.setMask e (s.expectedReadsBitMask e ||| readerId))

def associateReader (fuel : Nat) (s : FifoGeneric κ δ ρ τ) (r : ρ) :
    Outcome (FifoGeneric κ δ ρ τ) := do
  if ← searchReader s r fuel s.m_readers then return s
  let readerId ← s.newReaderId fuel
  -- the bit mask of the FIFO has only eight bits
  let mask := if s.m_readers = none then s.m_readerBitMask
    else (s.m_readerBitMask.setWidth 32 ||| readerId).setWidth 8
  let s := s.setReader r { s.reader r with
    nextReader := s.m_readers
    fifo := true
    readerId := readerId }
  let s := { s with m_readers := some r, m_readerBitMask := mask }
  expectAll readerId fuel s.m_fifo_first s

/-- Release an element that the reader has popped, together with its link. -/
def releaseLink (fuel : Nat) (s : FifoGeneric κ δ ρ τ) (r : ρ) (link : κ) :
    Outcome (FifoGeneric κ δ ρ τ) := do
  let s ← s.releaseElement fuel link (s.reader r).readerId
  let reader := s.reader r
  return s.setReader r { reader with
    allocated_elements := reader.allocated_elements.erase link
    unusedLinks := reader.unusedLinks + 1 }

def readerRelease (fuel : Nat) (s : FifoGeneric κ δ ρ τ) (r : ρ) (data : δ) :
    Outcome (FifoGeneric κ δ ρ τ) :=
  if (s.reader r).fifo then
    match (s.reader r).allocated_elements.find? fun e => s.data e = data with
    | none => .ok s
    | some link => s.releaseLink fuel r link
  else .ok s

/-- The loop of `releaseAll` over the links from the head on. -/
def releaseLinks (fuel : Nat) (r : ρ) :
    List κ → FifoGeneric κ δ ρ τ → Outcome (FifoGeneric κ δ ρ τ)
  | [], s => .ok s
  | link :: links, s =>
      if (s.reader r).fifo then do
        let s ← s.releaseLink fuel r link
        releaseLinks fuel r links s
      else .error .nullPointer

def readerReleaseAll (fuel : Nat) (s : FifoGeneric κ δ ρ τ) (r : ρ) :
    Outcome (FifoGeneric κ δ ρ τ) :=
  releaseLinks fuel r (s.reader r).allocated_elements s

def readerPop (s : FifoGeneric κ δ ρ τ) (r : ρ) :
    Outcome (FifoGeneric κ δ ρ τ × Option δ) := do
  let reader := s.reader r
  match reader.fifo_first with
  | none => return (s, none)
  | some element =>
      if !reader.fifo || reader.unusedLinks = 0 then return (s, none)
      let reader := { reader with
        unusedLinks := reader.unusedLinks - 1
        allocated_elements := element :: reader.allocated_elements }
      if reader.fifo_last = some element then
        return (s.setReader r { reader with fifo_first := none, fifo_last := none },
          some (s.data element))
      else
        check (s.next element).isSome
        return (s.setReader r { reader with fifo_first := s.next element }, some (s.data element))

/-- The loop of `releaseReader` over the elements that the reader has not read. -/
def releaseUnread (r : ρ) :
    Nat → Option κ → FifoGeneric κ δ ρ τ → Outcome (FifoGeneric κ δ ρ τ)
  | 0, _, _ => .error .outOfFuel
  | _ + 1, none, s => .ok s
  | fuel + 1, some e, s => do
      let following := s.next e
      let s ← s.releaseElement fuel e (s.reader r).readerId
      releaseUnread r fuel following s

/-- Take a reader that is not the head out of the list of readers. -/
def unlinkReader (s : FifoGeneric κ δ ρ τ) (r : ρ) : Nat → Option ρ → Outcome (FifoGeneric κ δ ρ τ)
  | 0, _ => .error .outOfFuel
  | _ + 1, none => .ok s
  | fuel + 1, some currentReader =>
      if (s.reader currentReader).nextReader = some r then
        let s := s.setReader currentReader
          { s.reader currentReader with nextReader := (s.reader r).nextReader }
        let s := { s with m_readerBitMask :=
          (s.m_readerBitMask.setWidth 32 &&& ~~~(s.reader r).readerId).setWidth 8 }
        .ok (s.setReader r { s.reader r with nextReader := none })
      else unlinkReader s r fuel (s.reader currentReader).nextReader

def releaseReader (fuel : Nat) (s : FifoGeneric κ δ ρ τ) (r : ρ) :
    Outcome (FifoGeneric κ δ ρ τ) := do
  let s ← s.readerReleaseAll fuel r
  let first := if (s.reader r).fifo_first = none then s.m_fifo_first else (s.reader r).fifo_first
  let s ← releaseUnread r fuel first s
  let s := { s with m_fifo_last := none }
  let s := s.setReader r { s.reader r with fifo_first := none, fifo := false }
  if s.m_readers = some r then
    let s := { s with m_readers := (s.reader r).nextReader }
    return { s with m_readerBitMask :=
      if s.m_readers ≠ none then
        (s.m_readerBitMask.setWidth 32 &&& ~~~(s.reader r).readerId).setWidth 8
      else 1 }
  else unlinkReader s r fuel s.m_readers

/-- The first reader of the task. -/
def findReader (s : FifoGeneric κ δ ρ τ) (task : τ) : Nat → Option ρ → Outcome (Option ρ)
  | 0, _ => .error .outOfFuel
  | _ + 1, none => .ok none
  | fuel + 1, some r =>
      if (s.reader r).readerTask = task then .ok (some r)
      else findReader s task fuel (s.reader r).nextReader

/-- The search for the first element from `p` on that expects to be read. -/
def searchUnread (s : FifoGeneric κ δ ρ τ) (readerId : BitVec 32) :
    Nat → Option κ → Outcome κ
  | 0, _ => .error .outOfFuel
  | _ + 1, none => .error .assertion
  | fuel + 1, some e =>
      if s.expectedReadsBitMask e &&& readerId = 0 then searchUnread s readerId fuel (s.next e)
      else .ok e

/-- The steps to the last element of the volume. -/
def advanceBy (s : FifoGeneric κ δ ρ τ) : Nat → κ → Outcome κ
  | 0, newItem => .ok newItem
  | n + 1, newItem =>
      match s.next newItem with
      | none => .error .assertion
      | some following => advanceBy s n following

def synchronizeReader (fuel : Nat) (s : FifoGeneric κ δ ρ τ) (r : ρ) (volume : Nat) :
    Outcome (FifoGeneric κ δ ρ τ) := do
  check s.m_fifo_first.isSome
  let reader := s.reader r
  match reader.fifo_first with
  | none =>
      let first ← searchUnread s reader.readerId fuel s.m_fifo_first
      let last ← advanceBy s (volume - 1) first
      return s.setReader r { reader with fifo_first := some first, fifo_last := some last }
  | some _ =>
      let last ← deref reader.fifo_last
      match s.next last with
      | none => .error .assertion
      | some newItem =>
          let last ← advanceBy s (volume - 1) newItem
          return s.setReader r { reader with fifo_last := some last }

def synchronize (fuel : Nat) (s : FifoGeneric κ δ ρ τ) (task : τ) (volume : Nat) :
    Outcome (FifoGeneric κ δ ρ τ) := do
  if volume = 0 then return s
  match ← findReader s task fuel s.m_readers with
  | none => return s
  | some r => s.synchronizeReader fuel r volume

def call (fuel : Nat) (s : FifoGeneric κ δ ρ τ) :
    FifoCall δ ρ τ → Outcome (FifoGeneric κ δ ρ τ × FifoAnswer δ)
  | .allocate =>
      let (s, data) := s.allocate
      .ok (s, .data data)
  | .release data => do
      let s ← s.release fuel data 1
      return (s, .nothing)
  | .push data => do
      let (s, result) ← s.push fuel data
      return (s, .pushed result)
  | .pop =>
      let (s, data) := s.pop
      .ok (s, .data data)
  | .associateReader r => do
      let s ← s.associateReader fuel r
      return (s, .nothing)
  | .releaseReader r => do
      let s ← s.releaseReader fuel r
      return (s, .nothing)
  | .synchronize task volume => do
      let s ← s.synchronize fuel task volume
      return (s, .nothing)
  | .readerPop r => do
      let (s, data) ← s.readerPop r
      return (s, .data data)
  | .readerRelease r data => do
      let s ← s.readerRelease fuel r data
      return (s, .nothing)
  | .readerReleaseAll r => do
      let s ← s.readerReleaseAll fuel r
      return (s, .nothing)

end FifoGeneric

end TaskingFramework
