import TaskingFramework.Foundation.Chain
import TaskingFramework.Foundation.Runs
import TaskingFramework.Policy.SchedulePolicy

/-!
# Last in, first out run queue

`SchedulePolicyLifo` threads its run queue through the `next` pointers in the management data of
the tasks. `queue` writes the link of a task only when the run queue is not empty, so a task
queued on the empty run queue keeps whatever link an earlier round left in it. The main result
states for which call sequences the policy still behaves as a stack.
-/

namespace TaskingFramework

open Foundation

variable {τ : Type*}

/-- `head` and the `next` pointers in the management data of all tasks. -/
structure SchedulePolicyLifo (τ : Type*) where
  next : τ → Option τ
  head : Option τ

namespace SchedulePolicyLifo

/-- The state the constructors leave: no head, no links. -/
def init : SchedulePolicyLifo τ := ⟨fun _ => none, none⟩

/-- The two methods. The link of `task` is written in the branch of a non-empty queue only. -/
def policy [DecidableEq τ] : SchedulePolicy τ (SchedulePolicyLifo τ) where
  queue task p :=
    match p.head with
    | some head => (⟨Function.update p.next task (some head), some task⟩, false)
    | none => (⟨p.next, some task⟩, true)
  nextTask p :=
    match p.head with
    | some head => (⟨p.next, p.next head⟩, some head)
    | none => (p, none)

/-- The stack a last in, first out run queue stands for: the newest task comes first. -/
def stack : SchedulePolicy τ (List τ) where
  queue task s := (task :: s, s.isEmpty)
  nextTask s := (s.tail, s.head?)

@[simp] theorem stack_queue (task : τ) (s : List τ) :
    stack.queue task s = (task :: s, s.isEmpty) := rfl

@[simp] theorem stack_nextTask (s : List τ) : stack.nextTask s = (s.tail, s.head?) := rfl

/-- No task is queued on the empty run queue after it has been queued on a non-empty one. -/
def FreshOnEmpty (calls : List (PolicyCall τ)) : Prop :=
  ∀ earlier task later, calls = earlier ++ .queue task :: later → stack.after [] earlier = [] →
    ∀ before between, earlier = before ++ .queue task :: between → stack.after [] before = []

/-- The same along a run: `linked` are the tasks queued on a non-empty run queue so far. -/
private def FreshFrom : List τ → (τ → Prop) → List (PolicyCall τ) → Prop
  | _, _, [] => True
  | s, linked, .queue task :: calls =>
      (s = [] → ¬ linked task) ∧
        FreshFrom (task :: s) (fun x => linked x ∨ x = task ∧ s ≠ []) calls
  | s, linked, .nextTask :: calls => FreshFrom s.tail linked calls

private theorem freshFrom_iff (s : List τ) (linked : τ → Prop) (calls : List (PolicyCall τ)) :
    FreshFrom s linked calls ↔ ∀ earlier call later, calls = earlier ++ call :: later →
      ∀ task, call = .queue task → stack.after s earlier = [] → ¬ linked task ∧
        ∀ before call' between, earlier = before ++ call' :: between →
          call' = .queue task → stack.after s before = [] := by
  induction calls generalizing s linked with
  | nil => simp [FreshFrom]
  | cons call calls ih =>
      rw [forall_split_cons]
      simp only [forall_split_cons]
      cases call with
      | nextTask => simp [FreshFrom, ih, SchedulePolicy.after]
      | queue t =>
          simp only [FreshFrom, ih, SchedulePolicy.after, stack_queue, PolicyCall.queue.injEq]
          constructor
          · rintro ⟨ht, h⟩
            refine ⟨?_, fun earlier call later he task htask hs => ?_⟩
            · rintro task rfl hs
              exact ⟨ht hs, by simp⟩
            · obtain ⟨hl, hb⟩ := h earlier call later he task htask hs
              rw [not_or] at hl
              exact ⟨hl.1, fun hte => not_not.mp fun hne => hl.2 ⟨hte.symm, hne⟩, hb⟩
          · rintro ⟨ht, h⟩
            refine ⟨fun hs => (ht t rfl hs).1, fun earlier call later he task htask hs => ?_⟩
            obtain ⟨hl, hte, hb⟩ := h earlier call later he task htask hs
            refine ⟨?_, hb⟩
            rintro (hlt | ⟨rfl, hne⟩)
            · exact hl hlt
            · exact hne (hte rfl)

variable [DecidableEq τ]

/-- Tasks to remove while the run queue stands for the stack `s` with the pointer `r` below it. -/
private def Follows (p : SchedulePolicyLifo τ) (s : List τ) (r : Option τ) : Prop :=
  Segment p.next p.head s r

private theorem Follows.queue {p : SchedulePolicyLifo τ} {s : List τ} {r : Option τ} {task : τ}
    (h : Follows p s r) (ht : task ∉ s) (hp : p.head ≠ none) :
    Follows (policy.queue task p).1 (task :: s) r := by
  obtain ⟨head, hh⟩ := Option.ne_none_iff_exists'.mp hp
  simp only [Follows, policy, hh] at h ⊢
  exact ⟨rfl, by simpa using Segment.update h ht (some head)⟩

private theorem Follows.queue_empty {p : SchedulePolicyLifo τ} {task : τ} (hp : p.head = none) :
    Follows (policy.queue task p).1 [task] (p.next task) := by
  simp [Follows, policy, hp]

private theorem Follows.nextTask {p : SchedulePolicyLifo τ} {s : List τ} {r : Option τ} {task : τ}
    (h : Follows p (task :: s) r) :
    (policy.nextTask p).2 = some task ∧ Follows (policy.nextTask p).1 s r := by
  obtain ⟨hh, hs⟩ := h
  simpa [policy, hh, Follows] using hs

omit [DecidableEq τ] in
private theorem Follows.head_ne_none {p : SchedulePolicyLifo τ} {s : List τ} {r : Option τ}
    (h : Follows p s r) (hr : r ≠ none) : p.head ≠ none := by
  cases s with
  | nil => exact fun he => hr (by simpa [Follows, he] using h.symm)
  | cons a s => simp [h.1]

private theorem returned_drain {p : SchedulePolicyLifo τ} {s : List τ} (h : Follows p s none)
    (k : Nat) :
    policy.returned p (List.replicate k .nextTask) =
      stack.returned s (List.replicate k .nextTask) := by
  induction k generalizing p s with
  | zero => rfl
  | succ k ih =>
      simp only [List.replicate_succ, SchedulePolicy.returned]
      cases s with
      | nil =>
          have hp : p.head = none := h
          have hq : policy.nextTask p = (p, none) := by simp [policy, hp]
          rw [hq, ih h]
          rfl
      | cons a s =>
          rw [h.nextTask.1, ih h.nextTask.2]
          rfl

private theorem returned_stale {p : SchedulePolicyLifo τ} {s : List τ} {x : τ}
    (calls : List (PolicyCall τ)) (h : Follows p s (some x)) (hq : QueuedOnce stack s calls) :
    ∃ k, policy.returned p (calls ++ List.replicate k .nextTask) ≠
      stack.returned s (calls ++ List.replicate k .nextTask) := by
  induction calls generalizing p s with
  | nil =>
      induction s generalizing p with
      | nil =>
          have hp : p.head = some x := h
          exact ⟨1, by simp [SchedulePolicy.returned, policy, stack, hp]⟩
      | cons a s ih =>
          obtain ⟨k, hk⟩ := ih h.nextTask.2 trivial
          refine ⟨k + 1, ?_⟩
          simp only [List.nil_append, List.replicate_succ, SchedulePolicy.returned] at hk ⊢
          rw [h.nextTask.1]
          simpa [stack] using hk
  | cons call calls ih =>
      cases call with
      | queue task => exact ih (h.queue hq.1 (h.head_ne_none (by simp))) hq.2
      | nextTask =>
          cases s with
          | nil =>
              have hp : p.head = some x := h
              exact ⟨0, by simp [SchedulePolicy.returned, policy, stack, hp]⟩
          | cons a s =>
              obtain ⟨k, hk⟩ := ih h.nextTask.2 hq
              refine ⟨k, ?_⟩
              simp only [List.cons_append, SchedulePolicy.returned]
              rw [h.nextTask.1]
              simpa [stack] using hk

private theorem returned_iff_freshFrom {p : SchedulePolicyLifo τ} {s : List τ} {linked : τ → Prop}
    (calls : List (PolicyCall τ)) (h : Follows p s none) (hl : ∀ t, p.next t ≠ none ↔ linked t)
    (hq : QueuedOnce stack s calls) :
    (∀ k, policy.returned p (calls ++ List.replicate k .nextTask) =
      stack.returned s (calls ++ List.replicate k .nextTask)) ↔ FreshFrom s linked calls := by
  induction calls generalizing p s linked with
  | nil => exact iff_of_true (returned_drain h) trivial
  | cons call calls ih =>
      cases call with
      | nextTask =>
          cases s with
          | nil =>
              have hp : p.head = none := h
              have hn : policy.nextTask p = (p, none) := by simp [policy, hp]
              simp only [List.cons_append, SchedulePolicy.returned, FreshFrom, hn]
              simpa [stack] using ih h hl hq
          | cons a s =>
              have hn := h.nextTask
              have hnext : (policy.nextTask p).1.next = p.next := by simp [policy, h.1]
              simp only [List.cons_append, SchedulePolicy.returned, FreshFrom, hn.1]
              simpa [stack] using ih hn.2 (by simpa [hnext] using hl) hq
      | queue task =>
          simp only [List.cons_append, SchedulePolicy.returned, FreshFrom]
          cases s with
          | cons a s =>
              have hp : p.head = some a := h.1
              have hlinked : ∀ t, (policy.queue task p).1.next t ≠ none ↔
                  linked t ∨ t = task ∧ a :: s ≠ [] := by
                intro t
                by_cases ht : t = task
                · simp [policy, hp, ht]
                · simpa [policy, hp, ht] using hl t
              simpa using ih (h.queue hq.1 (by simp [hp])) hlinked hq.2
          | nil =>
              have hp : p.head = none := h
              have hf : Follows (policy.queue task p).1 [task] (p.next task) := .queue_empty hp
              have hnext : (policy.queue task p).1.next = p.next := by simp [policy, hp]
              cases hn : p.next task with
              | none =>
                  have ht : ¬ linked task := fun hlt => (hl task).mpr hlt hn
                  rw [hn] at hf
                  have hlinked : ∀ t, (policy.queue task p).1.next t ≠ none ↔
                      linked t ∨ t = task ∧ ([] : List τ) ≠ [] := by
                    simpa [hnext] using hl
                  simpa [ht] using ih hf hlinked hq.2
              | some x =>
                  have ht : linked task := (hl task).mp (by simp [hn])
                  rw [hn] at hf
                  obtain ⟨k, hk⟩ := returned_stale calls hf hq.2
                  exact iff_of_false (fun hall => hk (hall k)) fun hfresh => hfresh.1 rfl ht

/-- The run queue behaves as a stack, and goes on to do so while it is drained, exactly when no
task is queued on the empty run queue after it has been queued on a non-empty one. -/
theorem returned_eq_stack_iff (calls : List (PolicyCall τ)) (hq : QueuedOnce stack [] calls) :
    (∀ k, policy.returned init (calls ++ List.replicate k .nextTask) =
      stack.returned [] (calls ++ List.replicate k .nextTask)) ↔ FreshOnEmpty calls := by
  have hnone : ∀ t : τ, (init : SchedulePolicyLifo τ).next t ≠ none ↔ False := by simp [init]
  have hempty : Follows (init : SchedulePolicyLifo τ) [] none := rfl
  rw [returned_iff_freshFrom calls hempty hnone hq, freshFrom_iff]
  constructor
  · intro h earlier task later he hs before between hb
    exact (h earlier _ later he task rfl hs).2 before _ between hb rfl
  · rintro h earlier _ later he task rfl hs
    refine ⟨not_false, ?_⟩
    rintro before _ between hb rfl
    exact h earlier task later he hs before between hb

/-- Two tasks queued one above the other and drained, then the upper one queued again. -/
private def requeue : List (PolicyCall Nat) :=
  [.queue 0, .queue 1, .nextTask, .nextTask, .queue 1]

theorem returned_eq_stack_iff_requeue :
    QueuedOnce stack [] requeue ∧
      ((∀ k, policy.returned init (requeue ++ List.replicate k .nextTask) =
        stack.returned [] (requeue ++ List.replicate k .nextTask)) ↔ FreshOnEmpty requeue) :=
  ⟨by simp [QueuedOnce, requeue, stack],
    returned_eq_stack_iff requeue (by simp [QueuedOnce, requeue, stack])⟩

/-- The second `nextTask` after the upper task is queued again returns a task that is not in the
run queue, where the stack is empty. -/
theorem requeue_returns_stale :
    ∃ calls : List (PolicyCall Nat), QueuedOnce stack [] calls ∧
      policy.returned init calls = [some 1, some 0, some 1, some 0] ∧
      stack.returned [] calls = [some 1, some 0, some 1, none] :=
  ⟨requeue ++ [.nextTask, .nextTask], by simp [QueuedOnce, requeue, stack], by decide, by decide⟩

end SchedulePolicyLifo

end TaskingFramework
