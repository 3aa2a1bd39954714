import TaskingFramework.Clock.Represents

/-!
# Operations of the clock that return

The loops of the clock do not depend on their bound once they have ended. So an operation that returned
has the value that is known for every sufficiently large bound.
-/

set_option linter.unusedSectionVars false

namespace TaskingFramework.Clock

open Foundation

variable {ε : Type} [DecidableEq ε] {s t : Clock ε} {q : List ε} {e : ε} {fuel now time : Nat}

private theorem correctPrevious_steady (value : Option ε) (continues : Clock ε → ε → Bool)
    (p : Option ε) (s : Clock ε) : Steady fun fuel => correctPrevious value continues fuel p s := by
  intro n t h
  induction n generalizing p s with
  | zero => exact absurd h (by simp [correctPrevious])
  | succ n ih =>
      cases p with
      | none => exact h
      | some e =>
          simp only [correctPrevious] at h ⊢
          split at h
          · rename_i hcontinues
            rw [if_pos hcontinues]
            exact ih _ _ h
          · rename_i hcontinues
            rw [if_neg hcontinues]
            exact h

private theorem searchPrevious_steady (s : Clock ε) (time : Nat) (p : Option ε) :
    Steady fun fuel => searchPrevious s time fuel p := by
  intro n b h
  induction n generalizing p with
  | zero => exact absurd h (by simp [searchPrevious])
  | succ n ih =>
      cases p with
      | none => exact h
      | some e =>
          simp only [searchPrevious] at h ⊢
          split at h
          · rename_i hlater
            rw [if_pos hlater]
            exact ih _ h
          · rename_i hlater
            rw [if_neg hlater]
            exact h

private theorem enqueueHead_steady (s : Clock ε) (e : ε) : Steady fun fuel => enqueueHead fuel s e := by
  refine Steady.bind ?_ fun _ => Steady.const _
  unfold correctHead
  cases s.queueHead with
  | none => exact Steady.const _
  | some head => exact Steady.ite (correctPrevious_steady _ _ _ _) (Steady.const _)

private theorem correctBehind_steady (s : Clock ε) (e : ε) :
    Steady fun fuel => correctBehind fuel s e := by
  unfold correctBehind
  cases s.next e with
  | none => exact Steady.const _
  | some following => exact correctPrevious_steady _ _ _ _

private theorem enqueue_steady (now : Nat) (s : Clock ε) (e : ε) :
    Steady fun fuel => enqueue fuel now s e := by
  refine Steady.ite (Steady.const _) (Steady.bind (searchPrevious_steady _ _ _) fun found => ?_)
  cases found with
  | none =>
      refine Steady.bind ?_ fun _ => Steady.const _
      exact Steady.bind (correctPrevious_steady _ _ _ _) fun _ => Steady.const _
  | some p => exact Steady.bind (correctBehind_steady _ _) fun _ => Steady.const _

theorem startAt_steady (s : Clock ε) (e : ε) (time : Nat) :
    Steady fun fuel => startAt fuel s e time := by
  refine Steady.ite (Steady.const _) (Steady.ite ?_ ?_)
  · exact Steady.bind (enqueue_steady _ _ _) fun _ => Steady.const _
  · exact Steady.bind (enqueueHead_steady _ _) fun _ => Steady.const _

theorem readFirstPending_steady (s : Clock ε) : Steady fun fuel => readFirstPending fuel s := by
  unfold readFirstPending
  cases s.queueHead with
  | none => exact Steady.const _
  | some head =>
      refine Steady.ite (Steady.bind ?_ fun _ => Steady.const _) (Steady.const _)
      unfold correctFirst
      cases (s.takeHead head).queueHead with
      | none => exact Steady.const _
      | some first => exact Steady.ite (correctPrevious_steady _ _ _ _) (Steady.const _)

private theorem correctPrevious_times {value : Option ε} {continues : Clock ε → ε → Bool} {p : Option ε}
    (h : correctPrevious value continues fuel p s = .ok t) :
    t.nextActivation_ms = s.nextActivation_ms := by
  induction fuel generalizing p s with
  | zero => exact absurd h (by simp [correctPrevious])
  | succ fuel ih =>
      cases p with
      | none =>
          obtain rfl : s = t := Except.ok.inj h
          rfl
      | some e =>
          rw [correctPrevious] at h
          split at h
          · exact (ih h).trans rfl
          · obtain rfl : s = t := Except.ok.inj h
            rfl

private theorem enqueueHead_times (h : enqueueHead fuel s e = .ok t) :
    t.nextActivation_ms = s.nextActivation_ms := by
  obtain ⟨u, hcorrect, h⟩ := bind_eq_ok.mp h
  obtain rfl := Except.ok.inj h
  show u.nextActivation_ms = s.nextActivation_ms
  unfold correctHead at hcorrect
  split at hcorrect
  · split at hcorrect
    · exact correctPrevious_times hcorrect
    · obtain rfl := Except.ok.inj hcorrect
      rfl
  · obtain rfl := Except.ok.inj hcorrect
    rfl

private theorem enqueue_times {first : Bool} (h : enqueue fuel now s e = .ok (t, first)) :
    t.nextActivation_ms = s.nextActivation_ms := by
  unfold enqueue at h
  simp only at h
  split at h
  · obtain ⟨rfl, _⟩ := Prod.mk.inj (Except.ok.inj h)
    rfl
  · obtain ⟨found, _, h⟩ := bind_eq_ok.mp h
    cases found with
    | none =>
        obtain ⟨u, hfront, h⟩ := bind_eq_ok.mp h
        obtain ⟨rfl, _⟩ := Prod.mk.inj (Except.ok.inj h)
        obtain ⟨v, hcorrect, hfront⟩ := bind_eq_ok.mp hfront
        obtain rfl := Except.ok.inj hfront
        exact (correctPrevious_times hcorrect).trans rfl
    | some p =>
        obtain ⟨u, hbehind, h⟩ := bind_eq_ok.mp h
        obtain ⟨rfl, _⟩ := Prod.mk.inj (Except.ok.inj h)
        unfold correctBehind at hbehind
        split at hbehind
        · obtain rfl := Except.ok.inj hbehind
          rfl
        · exact (correctPrevious_times hbehind).trans rfl

theorem startAt_times {wake : Wake} (hqueued : s.queued e = false)
    (h : startAt fuel s e time = .ok (t, wake)) :
    t.nextActivation_ms = Function.update s.nextActivation_ms e time := by
  unfold startAt at h
  simp only [hqueued, Bool.false_eq_true, if_false] at h
  split at h
  · obtain ⟨⟨u, first⟩, henqueue, h⟩ := bind_eq_ok.mp h
    obtain ⟨rfl, _⟩ := Prod.mk.inj (Except.ok.inj h)
    exact enqueue_times henqueue
  · obtain ⟨u, henqueue, h⟩ := bind_eq_ok.mp h
    obtain ⟨rfl, _⟩ := Prod.mk.inj (Except.ok.inj h)
    exact enqueueHead_times henqueue

end TaskingFramework.Clock
