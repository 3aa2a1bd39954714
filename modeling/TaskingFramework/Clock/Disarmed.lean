import TaskingFramework.Clock.AnyTime
import Mathlib.Data.Set.Insert

/-!
# A clock behind `dequeueAll`

Whatever the queue was before, `dequeueAll` leaves it empty. As long as events are only started for
the current time, every event that the links lead to is due, and the queue is empty again as soon as
no event is read from it.
-/

set_option linter.unusedSectionVars false

namespace TaskingFramework.Clock

open Foundation

variable {ε : Type} [DecidableEq ε] {s t : Clock ε} {D : Set ε} {e : ε} {fuel : Nat}

/-- The links lead to events of `D` only. These are due, and none of them is marked as queued. -/
structure OnlyDue (s : Clock ε) (D : Set ε) : Prop where
  head : ∀ e, s.queueHead = some e → e ∈ D
  next : ∀ e ∈ D, ∀ f, s.next e = some f → f ∈ D
  unmarked : ∀ e ∈ D, s.queued e = false
  due : ∀ e ∈ D, s.nextActivation_ms e ≤ s.time

theorem onlyDue_empty (h : s.queueHead = none) : s.OnlyDue ∅ :=
  ⟨fun e he => Option.some_ne_none e (he.symm.trans h), nofun, nofun, nofun⟩

theorem OnlyDue.queueHead (h : s.OnlyDue ∅) : s.queueHead = none :=
  Option.eq_none_iff_forall_ne_some.mpr fun e he => h.head e he

private theorem correctPrevious_frame {value : Option ε} {continues : Clock ε → ε → Bool} {p : Option ε}
    (h : correctPrevious value continues fuel p s = .ok t) :
    ∃ previous, t = { s with previous := previous } := by
  induction fuel generalizing p s with
  | zero => exact absurd h (by simp [correctPrevious])
  | succ fuel ih =>
      cases p with
      | none => exact ⟨s.previous, (Except.ok.inj h).symm⟩
      | some e =>
          rw [correctPrevious] at h
          split at h
          · obtain ⟨previous, ht⟩ := ih h
            exact ⟨previous, ht⟩
          · exact ⟨s.previous, (Except.ok.inj h).symm⟩

private theorem clearAll_time {p : Option ε} (h : clearAll fuel p s = .ok t) : t.time = s.time := by
  induction fuel generalizing p s with
  | zero => exact absurd h (by simp [clearAll])
  | succ fuel ih =>
      cases p with
      | none => exact congrArg Clock.time (Except.ok.inj h).symm
      | some e => exact ih (s := s.clear e) h

/-- The queue is empty behind `dequeueAll`, in whatever state it was. -/
theorem dequeueAll_onlyDue (h : dequeueAll fuel s = .ok t) :
    t.OnlyDue ∅ ∧ t.queueHead = none ∧ t.time = s.time := by
  obtain ⟨u, hclear, h⟩ := bind_eq_ok.mp h
  have htime := clearAll_time hclear
  obtain rfl := Except.ok.inj h
  exact ⟨⟨nofun, nofun, nofun, nofun⟩, rfl, htime⟩

private theorem OnlyDue.searchEvent {n previous b : Option ε} {found : Bool} (h : s.OnlyDue D)
    (he : e ∉ D)
    (hn : ∀ f, n = some f → f ∈ D) (hret : searchEvent s e fuel n previous = .ok (found, b)) :
    found = false := by
  induction fuel generalizing n previous with
  | zero => exact absurd hret (by simp [Clock.searchEvent])
  | succ fuel ih =>
      cases n with
      | none => exact (Prod.mk.inj (Except.ok.inj hret)).1.symm
      | some f =>
          have hf := hn f rfl
          have hne : f ≠ e := fun heq => he (heq ▸ hf)
          rw [Clock.searchEvent, if_neg hne] at hret
          exact ih (h.next f hf) hret

private theorem OnlyDue.clear (h : s.OnlyDue D) (e : ε) : (s.clear e).OnlyDue D := by
  refine ⟨h.head, fun a ha f hf => ?_, fun a ha => ?_, h.due⟩
  · by_cases hae : a = e
    · rw [show (s.clear e).next a = none from hae ▸ Function.update_self _ _ _] at hf
      cases hf
    · rw [show (s.clear e).next a = s.next a from Function.update_of_ne hae _ _] at hf
      exact h.next a ha f hf
  · by_cases hae : a = e
    · exact hae ▸ Function.update_self _ _ _
    · rw [show (s.clear e).queued a = s.queued a from Function.update_of_ne hae _ _]
      exact h.unmarked a ha

theorem OnlyDue.dequeue (h : s.OnlyDue D) (he : e ∉ D) (hret : dequeue fuel s e = .ok t) :
    t.OnlyDue D ∧ t.time = s.time ∧ t.queued e = false := by
  let v : Clock ε := { s with
    nonePendingHead := if s.nonePendingHead = some e then s.next e else s.nonePendingHead }
  have hv : v.OnlyDue D := ⟨h.head, h.next, h.unmarked, h.due⟩
  obtain ⟨⟨found, b⟩, hsearch, hret⟩ := bind_eq_ok.mp hret
  obtain rfl := hv.searchEvent he h.head hsearch
  obtain rfl := Except.ok.inj hret
  exact ⟨hv.clear e, rfl, Function.update_self _ _ _⟩

private theorem correctHead_frame (h : correctHead fuel s e = .ok t) :
    ∃ previous tail, t = { s with previous := previous, queueTail := tail } := by
  unfold correctHead at h
  split at h
  · split at h
    · obtain ⟨previous, ht⟩ := correctPrevious_frame h
      exact ⟨previous, s.queueTail, ht⟩
    · exact ⟨s.previous, s.queueTail, (Except.ok.inj h).symm⟩
  · exact ⟨s.previous, some e, (Except.ok.inj h).symm⟩

private theorem correctFirst_frame (h : correctFirst fuel s = .ok t) :
    ∃ previous tail, t = { s with previous := previous, queueTail := tail } := by
  unfold correctFirst at h
  split at h
  · exact ⟨s.previous, none, (Except.ok.inj h).symm⟩
  · split at h
    · obtain ⟨previous, ht⟩ := correctPrevious_frame h
      exact ⟨previous, s.queueTail, ht⟩
    · exact ⟨s.previous, s.queueTail, (Except.ok.inj h).symm⟩

private theorem OnlyDue.setHead (h : s.OnlyDue D) (hqueued : s.queued e = false) :
    ((s.setNextActivation e s.time).setHead e).OnlyDue (insert e D) := by
  refine ⟨fun f hf => ?_, fun a ha f hf => ?_, fun a ha => ?_, fun a ha => ?_⟩
  · exact Option.some.inj hf ▸ Set.mem_insert e D
  · by_cases hae : a = e
    · have hnext : Function.update s.next e s.queueHead a = s.queueHead := by
        rw [hae, Function.update_self]
      exact Set.mem_insert_of_mem e (h.head f (hnext.symm.trans hf))
    · have hnext : Function.update s.next e s.queueHead a = s.next a := Function.update_of_ne hae _ _
      exact Set.mem_insert_of_mem e (h.next a (Set.mem_of_mem_insert_of_ne ha hae) f
        (hnext.symm.trans hf))
  · rcases Set.mem_insert_iff.mp ha with rfl | ha
    · exact hqueued
    · exact h.unmarked a ha
  · show Function.update s.nextActivation_ms e s.time a ≤ s.time
    by_cases hae : a = e
    · rw [hae, Function.update_self]
    · rw [Function.update_of_ne hae]
      exact h.due a (Set.mem_of_mem_insert_of_ne ha hae)

theorem OnlyDue.startIn_zero {wake : Wake} (h : s.OnlyDue D) (hqueued : s.queued e = false)
    (hret : startIn fuel s e 0 = .ok (t, wake)) : t.OnlyDue (insert e D) ∧ t.time = s.time := by
  unfold startIn at hret
  simp only [ne_eq, not_true_eq_false, if_false, hqueued, Bool.false_eq_true] at hret
  obtain ⟨u, henqueue, hret⟩ := bind_eq_ok.mp hret
  obtain ⟨rfl, _⟩ := Prod.mk.inj (Except.ok.inj hret)
  obtain ⟨v, hcorrect, henqueue⟩ := bind_eq_ok.mp henqueue
  obtain rfl := Except.ok.inj henqueue
  obtain ⟨previous, tail, rfl⟩ := correctHead_frame hcorrect
  have hset := h.setHead hqueued
  exact ⟨⟨hset.head, hset.next, hset.unmarked, hset.due⟩, rfl⟩

private theorem OnlyDue.takeHead (h : s.OnlyDue D) (he : e ∈ D) : (s.takeHead e).OnlyDue D := by
  refine ⟨h.next e he, fun a ha f hf => ?_, fun a ha => ?_, h.due⟩
  · by_cases hae : a = e
    · rw [show (s.takeHead e).next a = none from hae ▸ Function.update_self _ _ _] at hf
      cases hf
    · rw [show (s.takeHead e).next a = s.next a from Function.update_of_ne hae _ _] at hf
      exact h.next a ha f hf
  · by_cases hae : a = e
    · exact hae ▸ Function.update_self _ _ _
    · rw [show (s.takeHead e).queued a = s.queued a from Function.update_of_ne hae _ _]
      exact h.unmarked a ha

/-- An event of `D` is read, or the queue is empty. -/
theorem OnlyDue.readFirstPending {found : Option ε} (h : s.OnlyDue D)
    (hret : readFirstPending fuel s = .ok (t, found)) :
    t.OnlyDue D ∧ t.time = s.time ∧
      match found with
      | some e => e ∈ D
      | none => t.queueHead = none := by
  unfold Clock.readFirstPending at hret
  cases hhead : s.queueHead with
  | none =>
      simp only [hhead] at hret
      obtain ⟨rfl, rfl⟩ := Prod.mk.inj (Except.ok.inj hret)
      exact ⟨h, rfl, hhead⟩
  | some e =>
      have he := h.head e hhead
      simp only [hhead, if_pos (h.due e he)] at hret
      obtain ⟨u, hcorrect, hret⟩ := bind_eq_ok.mp hret
      obtain ⟨rfl, rfl⟩ := Prod.mk.inj (Except.ok.inj hret)
      obtain ⟨previous, tail, rfl⟩ := correctFirst_frame hcorrect
      have htake := h.takeHead he
      exact ⟨⟨htake.head, htake.next, htake.unmarked, htake.due⟩, rfl, he⟩

theorem OnlyDue.not_pending (h : s.OnlyDue D) (hpending : s.isPending = false) :
    s.queueHead = none := by
  unfold isPending at hpending
  cases hhead : s.queueHead with
  | none => rfl
  | some e =>
      simp only [hhead, decide_eq_false_iff_not] at hpending
      exact absurd (h.due e (h.head e hhead)) hpending

end TaskingFramework.Clock
