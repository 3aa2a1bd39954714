import TaskingFramework.Clock.Represents
import TaskingFramework.Foundation.Calls

/-!
# The clock against a ledger of its events

The ledger lists the started and not yet removed events with their times, in the order of their
starts. A run calls the clock and keeps the ledger beside it; the queue of the clock is compared
with the ledger after every call.
-/

set_option linter.unusedSectionVars false

namespace TaskingFramework

open Foundation

inductive ClockCall (ε : Type) where
  | startAt (event : ε) (time : Nat)
  | startIn (event : ε) (time : Nat)
  | dequeue (event : ε)
  | dequeueAll
  | readFirstPending
  | getNextStartTime
  | advance (span : Nat)
  deriving DecidableEq, Repr

inductive ClockAnswer (ε : Type) where
  | nothing
  | wake (wake : Wake)
  | event (event : Option ε)
  | time (time : Nat)
  deriving DecidableEq, Repr

variable {ε : Type} [DecidableEq ε]

def Clock.call (fuel : Nat) (s : Clock ε) : ClockCall ε → Outcome (Clock ε × ClockAnswer ε)
  | .startAt event time => do
      let (s, wake) ← s.startAt fuel event time
      return (s, .wake wake)
  | .startIn event time => do
      let (s, wake) ← s.startIn fuel event time
      return (s, .wake wake)
  | .dequeue event => do
      let s ← s.dequeue fuel event
      return (s, .nothing)
  | .dequeueAll => do
      let s ← s.dequeueAll fuel
      return (s, .nothing)
  | .readFirstPending => do
      let (s, event) ← s.readFirstPending fuel
      return (s, .event event)
  | .getNextStartTime => do
      let (s, time) ← s.getNextStartTime fuel
      return (s, .time time)
  | .advance span => return ({ s with time := s.time + span }, .nothing)

abbrev Ledger (ε : Type) := List (ε × Nat)

namespace Ledger

def events (ledger : Ledger ε) : List ε := ledger.map Prod.fst

def start (ledger : Ledger ε) (event : ε) (time : Nat) : Ledger ε := ledger ++ [(event, time)]

def remove (ledger : Ledger ε) (event : ε) : Ledger ε := ledger.filter fun p => p.1 ≠ event

/-- The events with the given time, first started first. -/
def startedFor (ledger : Ledger ε) (time : Nat) : List ε :=
  events (ledger.filter fun p => decide (p.2 = time))

def record (now : Nat) (ledger : Ledger ε) : ClockCall ε → ClockAnswer ε → Ledger ε
  | .startAt event time, _ => ledger.start event time
  | .startIn event time, _ => ledger.start event (now + time)
  | .dequeue event, _ => ledger.remove event
  | .dequeueAll, _ => []
  | .readFirstPending, .event (some event) => ledger.remove event
  | _, _ => ledger

end Ledger

/-- A clock with its ledger. -/
structure Booked (ε : Type) where
  clock : Clock ε
  ledger : Ledger ε

namespace Booked

def opened (time : Nat) : Booked ε := ⟨Clock.empty time, []⟩

/-- Only events that are not in the queue are started, and times keep below the sign bit. -/
def Admissible (m : Booked ε) : ClockCall ε → Prop
  | .startAt event time => event ∉ m.ledger.events ∧ time < 2 ^ 63
  | .startIn event time => event ∉ m.ledger.events ∧ m.clock.time + time < 2 ^ 63
  | .advance span => m.clock.time + span < 2 ^ 63
  | _ => True

instance (m : Booked ε) : DecidablePred m.Admissible
  | .startAt _ _ | .startIn _ _ => inferInstanceAs (Decidable (_ ∧ _))
  | .advance _ => inferInstanceAs (Decidable (_ < _))
  | .dequeue _ | .dequeueAll | .readFirstPending | .getNextStartTime =>
      inferInstanceAs (Decidable True)

def call (fuel : Nat) (m : Booked ε) (c : ClockCall ε) : Outcome (Booked ε × ClockAnswer ε) := do
  let (clock, answer) ← m.clock.call fuel c
  return (⟨clock, m.ledger.record m.clock.time c answer⟩, answer)

abbrev Step : Booked ε → ClockCall ε × ClockAnswer ε → Booked ε → Prop :=
  Calls Admissible call

end Booked

namespace Clock

variable {s s' : Clock ε} {q q' l r : List ε} {ledger : Ledger ε} {e f c : ε} {t T : Nat}

/-- The call of a start in the future, without the arithmetic of the delay. -/
theorem call_startAt (fuel : Nat) (h : s.queued e = false) (ht : t < s.time + 2 ^ 63)
    (hnow : s.time < t) :
    s.call fuel (.startAt e t) =
      enqueue fuel s.time (s.setNextActivation e t) e >>= fun r =>
        .ok (r.1, .wake ⟨false, if r.2 then some (t - s.time) else none⟩) := by
  simp only [call, startAt_eq fuel ⟨by omega, ht⟩, h, Bool.false_eq_true, if_false,
    if_pos hnow, bind_assoc]
  rfl

/-- The queue holds what the ledger says. -/
structure Reflects (s : Clock ε) (ledger : Ledger ε) (q : List ε) : Prop
    extends s.Represents q where
  visits : q.Perm ledger.events
  times : ∀ p ∈ ledger, s.nextActivation_ms p.1 = p.2
  firstStarted : ∀ T, s.time < T →
    q.filter (fun e => decide (s.nextActivation_ms e = T)) = ledger.startedFor T
  cached : ∀ c, s.nonePendingHead = some c → c ∈ q

theorem reflects_empty (time : Nat) : (empty time : Clock ε).Reflects [] [] where
  toRepresents := represents_empty time
  visits := List.Perm.refl _
  times := by simp
  firstStarted _ _ := rfl
  cached := by simp [empty]

theorem Reflects.notMem (h : s.Reflects ledger q) (he : e ∉ ledger.events) : e ∉ q := fun hm =>
  he (h.visits.subset hm)

theorem Reflects.advance (h : s.Reflects ledger q) (ht : s.time ≤ t) :
    { s with time := t }.Reflects ledger q :=
  ⟨h.toRepresents.advance ht, h.visits, h.times,
    fun T hT => h.firstStarted T (lt_of_le_of_lt ht hT), h.cached⟩

private theorem Reflects.start (h : s.Reflects ledger q) (he : e ∉ ledger.events)
    (hrep : s'.Represents q') (htime : s'.time = s.time)
    (hact : s'.nextActivation_ms = Function.update s.nextActivation_ms e t)
    (hperm : q'.Perm (e :: q))
    (hfilter : ∀ T, s.time < T → q'.filter (fun a => decide (s'.nextActivation_ms a = T)) =
      q.filter (fun a => decide (s.nextActivation_ms a = T)) ++ if t = T then [e] else [])
    (hcached : ∀ c, s'.nonePendingHead = some c → c = e ∨ c ∈ q) :
    s'.Reflects (ledger.start e t) q' where
  toRepresents := hrep
  visits := by
    have happend : (Ledger.start ledger e t).events = ledger.events ++ [e] := by
      simp [Ledger.start, Ledger.events]
    rw [happend]
    exact hperm.trans ((List.Perm.cons e h.visits).trans (List.perm_append_singleton e _).symm)
  times := by
    intro p hp
    rw [hact]
    rcases List.mem_append.mp hp with hp | hp
    · have hpe : p.1 ≠ e := fun heq => he (heq ▸ List.mem_map_of_mem hp)
      rw [Function.update_of_ne hpe]
      exact h.times p hp
    · rw [List.mem_singleton.mp hp]
      exact Function.update_self e t s.nextActivation_ms
  firstStarted := by
    intro T hT
    rw [htime] at hT
    rw [hfilter T hT, h.firstStarted T hT]
    by_cases htT : t = T
    · simp [Ledger.startedFor, Ledger.start, Ledger.events, htT]
    · simp [Ledger.startedFor, Ledger.start, Ledger.events, htT]
  cached := by
    intro c hc
    apply hperm.symm.subset
    rw [List.mem_cons]
    exact hcached c hc

private theorem filter_time_update (he : e ∉ q) :
    q.filter (fun a => decide (Function.update s.nextActivation_ms e t a = T)) =
      q.filter (fun a => decide (s.nextActivation_ms a = T)) := by
  apply List.filter_congr
  intro a ha
  rw [setNextActivation_of_mem he ha]

theorem Reflects.start_due (h : s.Reflects ledger q) (he : e ∉ ledger.events) (ht : t ≤ s.time)
    (hrep : s'.Represents (e :: q)) (htime : s'.time = s.time)
    (hact : s'.nextActivation_ms = Function.update s.nextActivation_ms e t)
    (hcache : s'.nonePendingHead = s.nonePendingHead) :
    s'.Reflects (ledger.start e t) (e :: q) := by
  apply h.start he hrep htime hact (List.Perm.refl _)
  · intro T hT
    have htT : t ≠ T := by omega
    have hself : Function.update s.nextActivation_ms e t e ≠ T := by
      rw [Function.update_self]
      exact htT
    rw [hact, List.filter_cons_of_neg (by simpa using htT), filter_time_update (h.notMem he),
      if_neg htT, List.append_nil]
  · intro c hc
    rw [hcache] at hc
    exact Or.inr (h.cached c hc)

private theorem pendingAfterInsert_mem (hcached : ∀ c, s.nonePendingHead = some c → c ∈ q)
    (hc : s.pendingAfterInsert q e = some c) : c = e ∨ c ∈ q := by
  unfold pendingAfterInsert at hc
  split at hc
  · exact Or.inr (hcached c hc)
  · split at hc
    · split at hc
      · exact Or.inl (Option.some.inj hc).symm
      · simp at hc
    · split at hc
      · exact Or.inl (Option.some.inj hc).symm
      · exact Or.inr (hcached c hc)

theorem Reflects.start_future (h : s.Reflects ledger q) (he : e ∉ ledger.events) (ht : s.time < t)
    (hrep : s'.Represents (insertAt (Function.update s.nextActivation_ms e t) t e q))
    (htime : s'.time = s.time)
    (hact : s'.nextActivation_ms = Function.update s.nextActivation_ms e t)
    (hcache : s'.nonePendingHead = (s.setNextActivation e t).pendingAfterInsert q e) :
    s'.Reflects (ledger.start e t) (insertAt (Function.update s.nextActivation_ms e t) t e q) := by
  have heq := h.notMem he
  have hsplit : q = upTo (Function.update s.nextActivation_ms e t) t q ++
      behind (Function.update s.nextActivation_ms e t) t q :=
    ((h.toRepresents.setNextActivation heq t).ordered).split (le_of_lt ht)
  apply h.start he hrep htime hact (insertAt_perm hsplit)
  · intro T _
    rw [hact, ← filter_time_update (t := t) heq]
    generalize hu : Function.update s.nextActivation_ms e t = u at hsplit
    have hue : u e = t := by
      rw [← hu]
      exact Function.update_self e t s.nextActivation_ms
    have hq := congrArg (List.filter fun a => decide (u a = T)) hsplit
    rw [List.filter_append] at hq
    rw [hq, insertAt, List.filter_append]
    by_cases htT : t = T
    · -- nothing behind the new event has its time
      have hnil : (behind u t q).filter (fun a => decide (u a = T)) = [] := by
        rw [List.filter_eq_nil_iff]
        intro a ha
        have := (mem_behind.mp ha).2
        simp only [decide_eq_true_iff]
        omega
      rw [List.filter_cons_of_pos (by simpa [hue] using htT), hnil, if_pos htT, List.append_nil]
    · rw [List.filter_cons_of_neg (by simpa [hue] using htT), if_neg htT, List.append_nil]
  · intro c hc
    rw [hcache] at hc
    exact pendingAfterInsert_mem (s := s.setNextActivation e t) h.cached hc

private theorem pendingAfterRemove_mem (h : s.Represents q)
    (hcached : ∀ c, s.nonePendingHead = some c → c ∈ q) (hc : s.pendingAfterRemove e = some c) :
    c ∈ q.erase e := by
  unfold pendingAfterRemove at hc
  split at hc
  · rename_i heq
    obtain ⟨l, r, hl, rfl, herase⟩ := List.exists_erase_eq (hcached e heq)
    rw [Chain.next_eq h.chain] at hc
    rw [herase]
    exact List.mem_append_right _ (List.mem_of_head? hc)
  · rename_i hne
    have hce : c ≠ e := fun heq => hne (heq ▸ hc)
    exact (List.mem_erase_of_ne hce).mpr (hcached c hc)

theorem Reflects.remove (h : s.Reflects ledger q) (hrep : s'.Represents (q.erase e))
    (htime : s'.time = s.time) (hact : s'.nextActivation_ms = s.nextActivation_ms)
    (hcache : s'.nonePendingHead = s.pendingAfterRemove e) :
    s'.Reflects (ledger.remove e) (q.erase e) := by
  have herase : q.erase e = q.filter fun a => decide (a ≠ e) := by
    rw [h.nodup.erase_eq_filter]
    apply List.filter_congr
    intro a _
    rw [Bool.eq_iff_iff]
    simp
  have hevents : ∀ m : Ledger ε, (m.remove e).events = m.events.filter fun a => decide (a ≠ e) := by
    intro m
    rw [Ledger.events, Ledger.events, List.filter_map]
    rfl
  refine ⟨hrep, ?_, ?_, ?_, ?_⟩
  · rw [herase, hevents]
    exact h.visits.filter _
  · intro p hp
    rw [hact]
    exact h.times p (List.mem_of_mem_filter hp)
  · intro T hT
    rw [htime] at hT
    rw [hact, herase, List.filter_comm, h.firstStarted T hT, Ledger.startedFor, Ledger.startedFor,
      ← hevents, Ledger.remove, Ledger.remove, List.filter_comm]
  · intro c hc
    rw [hcache] at hc
    exact pendingAfterRemove_mem h.toRepresents h.cached hc

/-- The part of the queue where the search for the next start time begins. -/
theorem Reflects.split_cache (h : s.Reflects ledger q) :
    ∃ l r, q = l ++ r ∧ (s.nonePendingHead = none ∧ l = [] ∨
      s.nonePendingHead ≠ none ∧ s.nonePendingHead = r.head?) := by
  cases hc : s.nonePendingHead with
  | none => exact ⟨[], q, rfl, Or.inl ⟨rfl, rfl⟩⟩
  | some c =>
      obtain ⟨l, r, rfl⟩ := List.append_of_mem (h.cached c hc)
      exact ⟨l, c :: r, rfl, Or.inr ⟨by simp, rfl⟩⟩

end Clock

end TaskingFramework
