import TaskingFramework.Event.Event
import Mathlib.Algebra.BigOperators.Group.List.Basic
import Mathlib.Algebra.GroupWithZero.Nat

/-!
# The queue under the operations of events

An event that is started for a time in the future is marked as queued, one that is due at once is not.
As long as no operation starts its event for the current time or before, the marked events are those
in the queue. Within `handleEvents` a late periodic event may be started for a time that is over; it is
at the head then, and the next one to be read.
-/

set_option linter.unusedSectionVars false

namespace TaskingFramework

open Foundation

namespace Clock

variable {ε : Type} [DecidableEq ε] {s s' : Clock ε} {q r : List ε} {e : ε} {t : Nat}

/-- The chain ends in the tail, visits no event twice, and its events are the marked ones. -/
structure WellQueued (s : Clock ε) (q : List ε) : Prop where
  chain : Chain s.next s.queueHead q
  tail : s.queueTail = q.getLast?
  once : q.Nodup
  queued : ∀ e, s.queued e = true ↔ e ∈ q

/-- Every event of the queue is marked as queued. -/
structure Marked (s : Clock ε) (q : List ε) : Prop extends s.Represents q where
  marked : ∀ e ∈ q, s.queued e = true

theorem marked_empty (time : Nat) : (empty time : Clock ε).Marked [] :=
  ⟨represents_empty time, by simp⟩

theorem Marked.queued_iff (h : s.Marked q) : s.queued e = true ↔ e ∈ q := by
  constructor
  · intro hqueued
    by_contra he
    rw [(h.outside e he).1] at hqueued
    simp at hqueued
  · exact h.marked e

theorem Marked.wellQueued (h : s.Marked q) : s.WellQueued q :=
  ⟨h.chain, h.tail, h.nodup, fun _ => h.queued_iff⟩

theorem Marked.startAt (h : s.Marked q) (he : e ∉ q) (ht : t < 2 ^ 63) (hnow : s.time < t) :
    ∃ s' wake q', Returns (fun fuel => Clock.startAt fuel s e t) (s', wake) ∧ s'.Marked q' ∧
      s'.time = s.time ∧ s'.nextActivation_ms = Function.update s.nextActivation_ms e t ∧
      q'.Perm (e :: q) := by
  obtain ⟨s', hret, hrep, htime, hact, hqueued, _⟩ := startAt_future h.toRepresents he (by omega) hnow
  have hsplit := ((h.toRepresents.setNextActivation he t).ordered).split (le_of_lt hnow)
  have hperm := insertAt_perm (e := e) hsplit
  refine ⟨s', _, _, hret, ⟨hrep, ?_⟩, htime, hact, hperm⟩
  intro f hf
  rw [hqueued]
  by_cases hfe : f = e
  · rw [hfe, Function.update_self]
  · rw [Function.update_of_ne hfe]
    exact h.marked f ((List.mem_cons.mp (hperm.subset hf)).resolve_left hfe)

theorem Marked.startIn (h : s.Marked q) (he : e ∉ q) (ht : s.time + t < 2 ^ 63) (ht0 : t ≠ 0) :
    ∃ s' wake q', Returns (fun fuel => Clock.startIn fuel s e t) (s', wake) ∧ s'.Marked q' ∧
      s'.time = s.time := by
  obtain ⟨s', wake, q', hret, hmarked, htime, _⟩ := h.startAt he ht (by omega)
  exact ⟨s', wake, q', hret.congr fun fuel => (startIn_eq fuel ht0 (by omega)).symm, hmarked, htime⟩

theorem Marked.dequeue (h : s.Marked q) (e : ε) :
    ∃ s', Returns (fun fuel => Clock.dequeue fuel s e) s' ∧ s'.Marked (q.erase e) ∧
      s'.time = s.time ∧ s'.nextActivation_ms = s.nextActivation_ms := by
  obtain ⟨s', hret, hrep, htime, hact, hqueued, _⟩ := dequeue_returns h.toRepresents e
  refine ⟨s', hret, ⟨hrep, ?_⟩, htime, hact⟩
  intro f hf
  have hfe : f ≠ e := fun heq => h.nodup.not_mem_erase (heq ▸ hf)
  rw [hqueued, Function.update_of_ne hfe]
  exact h.marked f (List.mem_of_mem_erase hf)

theorem Marked.setNextActivation (h : s.Marked q) (he : e ∉ q) (t : Nat) :
    (s.setNextActivation e t).Marked q :=
  ⟨h.toRepresents.setNextActivation he t, h.marked⟩

theorem Marked.advance (h : s.Marked q) (ht : s.time ≤ t) : { s with time := t }.Marked q :=
  ⟨h.toRepresents.advance ht, h.marked⟩

/-- Only the head of the queue may be unmarked, and only if it is due. -/
structure Pending (s : Clock ε) (q : List ε) : Prop extends s.Represents q where
  head : ∀ e ∈ q.head?, s.queued e = true ∨ s.nextActivation_ms e ≤ s.time
  rest : ∀ e ∈ q.tail, s.queued e = true

theorem Marked.pending (h : s.Marked q) : s.Pending q :=
  ⟨h.toRepresents, fun e he => Or.inl (h.marked e (List.mem_of_head? he)),
    fun e he => h.marked e (List.mem_of_mem_tail he)⟩

/-- Once no event is due the whole queue is marked. -/
theorem Pending.marked (h : s.Pending q) (hq : ∀ e ∈ q.head?, s.time < s.nextActivation_ms e) :
    s.Marked q := by
  refine ⟨h.toRepresents, ?_⟩
  intro e he
  cases q with
  | nil => simp at he
  | cons a q =>
      rcases List.mem_cons.mp he with rfl | he
      · rcases h.head e rfl with hqueued | hdue
        · exact hqueued
        · exact absurd (hq e rfl) (not_lt_of_ge hdue)
      · exact h.rest e he

theorem Pending.read (h : s.Pending (e :: r)) (hdue : s.nextActivation_ms e ≤ s.time) :
    ∃ s', Returns (fun fuel => Clock.readFirstPending fuel s) (s', some e) ∧ s'.Marked r ∧
      s'.time = s.time ∧ s'.nextActivation_ms = s.nextActivation_ms := by
  obtain ⟨s', hret, hrep, htime, hact, hqueued, _⟩ := readFirstPending_due h.toRepresents hdue
  have her : e ∉ r := (List.nodup_cons.mp h.nodup).1
  refine ⟨s', hret, ⟨hrep, ?_⟩, htime, hact⟩
  intro f hf
  have hfe : f ≠ e := fun heq => her (heq ▸ hf)
  rw [hqueued, Function.update_of_ne hfe]
  exact h.rest f hf

end Clock

end TaskingFramework
