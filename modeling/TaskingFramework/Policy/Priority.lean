import TaskingFramework.Policy.SortedPolicies

/-!
# The order of the priority policy

The next task is one of the highest priority, and of those the one that was queued first. Each queued
task is returned once.
-/

set_option linter.unusedSectionVars false

namespace TaskingFramework

open Foundation

namespace RunQueue

variable {τ σ : Type} [DecidableEq τ] {P : LinkedPolicy τ σ} {priority : τ → Nat}
  {R : σ → List τ → Prop} {w w' : RunQueue τ σ} {s : σ} {q tasks : List τ} {t : τ}
  {c : PolicyCall τ} {a : PolicyAnswer τ} {l : List (PolicyCall τ × PolicyAnswer τ)}

/-- The calls that queue the task. -/
def queued (t : τ) (l : List (PolicyCall τ × PolicyAnswer τ)) : Nat :=
  l.countP fun entry => entry.1 = .queue t

/-- The calls that return the task. -/
def returned (t : τ) (l : List (PolicyCall τ × PolicyAnswer τ)) : Nat :=
  l.countP fun entry => entry.2 = .next (some t)

/-- None of the tasks, the last queued of which comes first, is to be returned before `t`. -/
structure Foremost (priority : τ → Nat) (tasks : List τ) (t : τ) : Prop where
  mem : t ∈ tasks
  highest : ∀ u ∈ tasks, priority u ≤ priority t
  oldest : (tasks.filter fun u => priority u = priority t).getLast? = some t

/-- The list of a run queue with these tasks: each priority alone is a first in, first out queue. -/
structure InOrder (priority : τ → Nat) (tasks q : List τ) : Prop where
  perm : tasks.Perm q
  nodup : tasks.Nodup
  descending : Descending priority q
  fifo : ∀ i, q.filter (priority · = i) = (tasks.filter (priority · = i)).reverse

private theorem inOrder_nil : InOrder priority [] [] :=
  ⟨.refl _, List.nodup_nil, List.Pairwise.nil, fun _ => rfl⟩

private theorem InOrder.queue (h : InOrder priority tasks q) (ht : t ∉ tasks) :
    InOrder priority (t :: tasks) (enter priority t q) := by
  refine ⟨(h.perm.cons t).trans enter_perm.symm, List.nodup_cons.mpr ⟨ht, h.nodup⟩,
    h.descending.enter, ?_⟩
  intro i
  by_cases hi : priority t = i
  · subst i
    rw [h.descending.filter_enter, h.fifo, List.filter_cons_of_pos (by simp), List.reverse_cons]
  · rw [filter_enter_of_ne hi, h.fifo, List.filter_cons_of_neg (by simpa using hi)]

private theorem InOrder.nextTask (h : InOrder priority tasks (t :: q)) :
    InOrder priority (tasks.erase t) q := by
  have hnodup : (t :: q).Nodup := h.perm.nodup_iff.mp h.nodup
  have hq : (t :: q).filter (· ≠ t) = q := by
    rw [List.filter_cons_of_neg (by simp), List.filter_eq_self]
    intro u hu
    rw [decide_eq_true_iff]
    exact fun heq => (List.nodup_cons.mp hnodup).1 (heq ▸ hu)
  have htasks : tasks.erase t = tasks.filter (· ≠ t) := by
    rw [h.nodup.erase_eq_filter]
    apply List.filter_congr
    intro u _
    rw [Bool.eq_iff_iff]
    simp
  refine ⟨?_, h.nodup.erase t, h.descending.tail, ?_⟩
  · have herase := h.perm.erase t
    rwa [List.erase_cons_head] at herase
  · intro i
    have hfifo := congrArg (List.filter (· ≠ t)) (h.fifo i)
    rw [List.filter_comm, hq, List.filter_reverse, List.filter_comm, ← htasks] at hfifo
    exact hfifo

private theorem InOrder.foremost (h : InOrder priority tasks (t :: q)) : Foremost priority tasks t := by
  refine ⟨h.perm.mem_iff.mpr List.mem_cons_self, ?_, ?_⟩
  · intro u hu
    exact h.descending.le_head (h.perm.subset hu)
  · rw [← List.head?_reverse, ← h.fifo, List.filter_cons_of_pos (by simp)]
    rfl

private theorem InOrder.isEmpty (h : InOrder priority tasks q) : q.isEmpty = tasks.isEmpty := by
  rw [Bool.eq_iff_iff, List.isEmpty_iff, List.isEmpty_iff]
  exact ⟨fun hq => (hq ▸ h.perm).eq_nil, fun ht => (ht ▸ h.perm).symm.eq_nil⟩

private theorem queued_snoc : queued t (l ++ [(c, a)]) = queued t l + if c =
    .queue t then 1 else 0 := by
  simp [queued, List.countP_append, List.countP_cons]

private theorem returned_snoc :
    returned t (l ++ [(c, a)]) = returned t l + if a = .next (some t) then 1 else 0 := by
  simp [returned, List.countP_append, List.countP_cons]

/-- The run queue behind a run: each task in it was queued once more than it was returned. -/
structure Serves (R : σ → List τ → Prop) (priority : τ → Nat) (w : RunQueue τ σ)
    (l : List (PolicyCall τ × PolicyAnswer τ)) (q : List τ) : Prop where
  shows : Shows R w q
  inOrder : InOrder priority w.tasks q
  balance : ∀ t, queued t l = returned t l + w.tasks.count t

private theorem serves_start (hs : R s []) : Serves R priority (start s) [] [] :=
  ⟨⟨hs, .refl _⟩, inOrder_nil, fun _ => rfl⟩

private theorem Serves.step (h : Implements P priority R) (hw : Serves R priority w l q)
    (hc : w.Admits c) :
    ∃ w', Step P w (c, answer q c) w' ∧
      Serves R priority w' (l ++ [(c, answer q c)]) (serve priority q c) ∧
      w'.tasks = passed w.tasks c (answer q c) := by
  obtain ⟨w', hstep, hshows, htasks⟩ := hw.shows.step h hc
  refine ⟨w', hstep, ⟨hshows, ?_, ?_⟩, htasks⟩
  · rw [htasks]
    cases c with
    | queue t => exact hw.inOrder.queue hc
    | nextTask =>
        have horder := hw.inOrder
        cases q with
        | nil => exact horder
        | cons b q => exact horder.nextTask
  · intro u
    rw [queued_snoc, returned_snoc, htasks, hw.balance]
    cases c with
    | queue t =>
        have hne : answer q (.queue t) ≠ .next (some u) := nofun
        rw [passed, List.count_cons, if_neg hne]
        simp only [PolicyCall.queue.injEq, beq_iff_eq]
        omega
    | nextTask =>
        rw [if_neg nofun]
        have horder := hw.inOrder
        cases q with
        | nil => rw [if_neg nofun]; rfl
        | cons b q =>
            have hb : b ∈ w.tasks := horder.perm.mem_iff.mpr List.mem_cons_self
            have hpos : 0 < w.tasks.count b := List.count_pos_iff.mpr hb
            show _ = _ + (w.tasks.erase b).count u
            by_cases hu : b = u
            · subst u
              have hanswer : answer (b :: q) .nextTask = .next (some b) := rfl
              rw [List.count_erase_self, if_pos hanswer]
              omega
            · have hne : answer (b :: q) .nextTask ≠ .next (some u) := by
                intro heq
                exact hu (Option.some.inj (PolicyAnswer.next.inj heq))
              rw [List.count_erase_of_ne (Ne.symm hu), if_neg hne, Nat.add_zero, Nat.add_zero]

private theorem run_serves (h : Implements P priority R) (hs : R s [])
    (hrun : Run (Step P) (start s) l w) :
    ∃ q, Serves R priority w l q := by
  induction hrun with
  | start => exact ⟨[], serves_start hs⟩
  | @next l w i w' _ hstep ih =>
      obtain ⟨q, hw⟩ := ih
      obtain ⟨v, hv, hserves, _⟩ := hw.step h hstep.1
      obtain ⟨heq, rfl⟩ := Calls.unique hstep hv
      exact ⟨_, heq ▸ hserves⟩

private theorem Serves.drain (h : Implements P priority R) (hw : Serves R priority w l q) :
    ∃ m w', Run (Step P) w m w' ∧ (∀ entry ∈ m, entry.1 = .nextTask) ∧
      m.length = w.tasks.length ∧ w'.tasks = [] := by
  induction q generalizing w l with
  | nil =>
      have hnil : w.tasks = [] := hw.inOrder.perm.eq_nil
      exact ⟨[], w, .start, by simp, by rw [hnil]; rfl, hnil⟩
  | cons b q ih =>
      obtain ⟨v, hstep, hserves, htasks⟩ := hw.step h (c := .nextTask) trivial
      obtain ⟨m, w', hrun, hcalls, hlength, hnil⟩ := ih hserves
      have hb : b ∈ w.tasks := hw.inOrder.perm.mem_iff.mpr List.mem_cons_self
      have hless : v.tasks.length + 1 = w.tasks.length := by
        rw [htasks]
        show (w.tasks.erase b).length + 1 = _
        rw [List.length_erase_of_mem hb]
        have := List.length_pos_of_mem hb
        omega
      refine ⟨(.nextTask, answer (b :: q) .nextTask) :: m, w', ?_, ?_, ?_, hnil⟩
      · rw [← List.singleton_append]
        exact (Run.start.next hstep).append hrun
      · intro entry hentry
        rcases List.mem_cons.mp hentry with rfl | hentry
        · rfl
        · exact hcalls entry hentry
      · rw [List.length_cons, hlength]
        exact hless

/-- In every run of the priority policy the next task is a foremost one, `queue` tells whether no task
was left, and each task is returned as often as it is queued, once the run queue is drained. -/
theorem run_byPriority (priority : τ → Nat) {w : RunQueue τ (SchedulePolicyPriority τ)}
    (hrun : Run (Step (SchedulePolicyPriority.policy priority)) (start SchedulePolicyPriority.init)
      l w) :
    w.tasks.Nodup ∧ (∀ t, queued t l = returned t l + w.tasks.count t) ∧
      (∀ c, w.Admits c → ∃ a w', Step (SchedulePolicyPriority.policy priority) w (c, a) w') ∧
      (∀ t a w', Step (SchedulePolicyPriority.policy priority) w (.queue t, a) w' →
        a = .queued w.tasks.isEmpty) ∧
      (∀ a w', Step (SchedulePolicyPriority.policy priority) w (.nextTask, a) w' →
        ∃ next, a = .next next ∧ (next = none ↔ w.tasks = []) ∧
          ∀ t ∈ next, Foremost priority w.tasks t) ∧
      ∃ m w', Run (Step (SchedulePolicyPriority.policy priority)) w m w' ∧
        (∀ entry ∈ m, entry.1 = .nextTask) ∧ m.length = w.tasks.length ∧ w'.tasks = [] := by
  have h := SchedulePolicyPriority.implements priority
  obtain ⟨q, hw⟩ := run_serves h SchedulePolicyPriority.ordered_init hrun
  have hanswer : ∀ c a w', Step (SchedulePolicyPriority.policy priority) w (c, a) w' →
      a = answer q c := by
    intro c a w' hstep
    obtain ⟨v, hv, _⟩ := hw.step h hstep.1
    exact (Calls.unique hstep hv).1
  refine ⟨hw.inOrder.nodup, hw.balance, ?_, ?_, ?_, hw.drain h⟩
  · intro c hc
    obtain ⟨v, hv, _⟩ := hw.step h hc
    exact ⟨_, v, hv⟩
  · intro t a w' hstep
    rw [hanswer _ _ _ hstep, ← hw.inOrder.isEmpty]
    rfl
  · intro a w' hstep
    refine ⟨q.head?, hanswer _ _ _ hstep, ?_, ?_⟩
    · rw [List.head?_eq_none_iff]
      exact ⟨fun hq => (hq ▸ hw.inOrder.perm).eq_nil, fun ht => (ht ▸ hw.inOrder.perm).symm.eq_nil⟩
    · intro t ht
      have horder := hw.inOrder
      obtain ⟨q', rfl⟩ := List.head?_eq_some_iff.mp ht
      exact horder.foremost

/-- The tasks 20 and 21 have the same priority, and 20 was queued first. -/
theorem run_byPriority_three :
    ∃ w a w', Run (Step (SchedulePolicyPriority.policy (· / 10))) (start SchedulePolicyPriority.init)
        [(.queue 20, .queued true), (.queue 10, .queued false), (.queue 21, .queued false)] w ∧
      Step (SchedulePolicyPriority.policy (· / 10)) w (.nextTask, a) w' ∧
      ∃ next, a = .next next ∧ (next = none ↔ w.tasks = []) ∧
        ∀ t ∈ next, Foremost (· / 10) w.tasks t := by
  have h₀ : Run (Step (SchedulePolicyPriority.policy (· / 10))) (start SchedulePolicyPriority.init) []
    (start SchedulePolicyPriority.init) := .start
  have h₁ := h₀.next_call 8 (.queue 20) (by decide : 20 ∉ []) fun fuel => rfl
  have h₂ := h₁.next_call 8 (.queue 10) (by decide : 10 ∉ [20]) fun fuel => rfl
  have hrun := h₂.next_call 8 (.queue 21) (by decide : 21 ∉ [10, 20]) fun fuel => rfl
  obtain ⟨_, _, hadmits, _, hnext, _⟩ := run_byPriority (· / 10) hrun
  obtain ⟨a, w', hstep⟩ := hadmits .nextTask trivial
  exact ⟨_, a, w', hrun, hstep, hnext a w' hstep⟩

end RunQueue

end TaskingFramework
