import TaskingFramework.Linux.LostWakeUp
import TaskingFramework.Foundation.Rest
import Mathlib.Algebra.BigOperators.Fin

/-!
# The executors come to rest

When nobody queues a task, requests the handling of events or begins to wait, the executors and the
threads that are inside `signal` only have a bounded number of steps left. In a run that hears every
request they end with an empty run queue, all executors parked, and every task that was queued
handed out to an executor.
-/

namespace TaskingFramework

open Foundation

variable {n : Nat} {τ κ : Type*}

/-- The steps of an executor until it waits, without those for the tasks it fetches. -/
def ExecutorPc.weight : ExecutorPc τ → ℕ
  | .waiting => 0
  | .enlisted => 1
  | .closing => 3
  | .fetching => 4
  | .checking | .handling => 5
  | .executing _ => 6

/-- A caller may wake up an executor. -/
def CallerPc.weight : CallerPc n → ℕ
  | .idle => 0
  | .chosen _ => 7
  | .queued | .requested => 8

def Signaler.weight (signaler : Signaler) : ℕ := if signaler.signalled then 6 else 0

namespace ExecutionModel

/-- The steps that bring no new work: nothing is queued or requested, and no event is pending. -/
def Internal : ExecutionAction n τ κ → Prop
  | .queue _ _ | .request _ | .isPending _ true | .waitUntilEmpty => False
  | _ => True

/-- The tasks queued in the run. -/
def queuedTasks (acts : List (ExecutionAction n τ κ)) : List τ :=
  acts.filterMap fun | .queue _ task => some task | _ => none

/-- The tasks handed out to executors in the run. -/
def fetchedTasks (acts : List (ExecutionAction n τ κ)) : List τ :=
  acts.filterMap fun | .nextTask _ task => task | _ => none

/-- A flag that is set reaches its executor: the condition variable was signalled as well. -/
def Alert (s : ExecutionModel n τ κ) : Prop :=
  ∀ e, (s.signaler e).wakeUp = true → s.pc e = .waiting ∧ (s.signaler e).signalled = true

/-- An upper bound of the internal steps that are left. -/
def load [Fintype κ] (s : ExecutionModel n τ κ) : ℕ :=
  3 * s.runQueue.length + ∑ e, (s.pc e).weight + ∑ e, (s.signaler e).weight +
    ∑ c, (s.caller c).weight + s.emptySignal.signalled.toNat

section Load

variable [Fintype κ] {s t : ExecutionModel n τ κ} {e : Fin n}

private theorem load_setPc (pc : ExecutorPc τ) :
    (s.setPc e pc).load + (s.pc e).weight = s.load + pc.weight := by
  have hsum := sum_update (fun _ => ExecutorPc.weight) s.pc e pc
  simp only [load, setPc]
  omega

private theorem load_setSignaler (signaler : Signaler) :
    (s.setSignaler e signaler).load + (s.signaler e).weight = s.load + signaler.weight := by
  have hsum := sum_update (fun _ => Signaler.weight) s.signaler e signaler
  simp only [load, setSignaler]
  omega

variable [DecidableEq κ]

private theorem load_setCaller {c : κ ⊕ Fin n} (pc : CallerPc n) :
    (s.setCaller c pc).load + (s.caller c).weight = s.load + pc.weight := by
  have hsum := sum_update (fun _ => CallerPc.weight) s.caller c pc
  simp only [load, setCaller]
  omega

variable [DecidableEq τ] {a : ExecutionAction n τ κ}

/-- Every internal step takes something off the load. -/
theorem load_lt (ha : Internal a) (hstep : Step s a t) : t.load < s.load := by
  cases step_acts hstep with
  | queue | request | waitUntilEmpty => exact absurd ha id
  | @choose c e rest hc hfree =>
      have hload := load_setCaller (s := s) (c := c) (.chosen e)
      have hlower : (s.setCaller c (.chosen e)).load < s.load := by
        rcases hc with hc | hc <;> simp only [hc, CallerPc.weight] at hload <;> omega
      exact hlower
  | @drop c hc hfree =>
      have hload := load_setCaller (s := s) (c := c) .idle
      rcases hc with hc | hc <;> simp only [hc, CallerPc.weight] at hload <;> omega
  | @wakeUp c e hc hpc =>
      have hsignaler := load_setSignaler (s := s) (e := e) ((s.signaler e).signal (s.pc e = .waiting))
      have hcaller := load_setCaller
        (s := s.setSignaler e ((s.signaler e).signal (s.pc e = .waiting))) (c := c) .idle
      have hafter : ((s.signaler e).signal (s.pc e = .waiting)).weight ≤ 6 := by
        unfold Signaler.weight
        split <;> omega
      have hbefore :
          ((s.setSignaler e ((s.signaler e).signal (s.pc e = .waiting))).caller c).weight = 7 := by
        rw [setSignaler, hc]
        rfl
      simp only [CallerPc.weight] at hcaller hbefore
      omega
  | @wait e hpc =>
      have hload := load_setPc (s := s) (e := e) .waiting
      simp only [hpc, ExecutorPc.weight] at hload
      omega
  | @resume e hpc hsignalled =>
      have hsignaler := load_setSignaler (s := s) (e := e) ⟨false, false⟩
      simp only [Signaler.weight, hsignalled, if_true, Bool.false_eq_true, if_false] at hsignaler
      have hpc : (s.setSignaler e ⟨false, false⟩).pc e = .waiting := hpc
      split
      · have hload := load_setPc (s := s.setSignaler e ⟨false, false⟩) (e := e) .checking
        simp only [hpc, ExecutorPc.weight] at hload
        omega
      · have hload := load_setPc (s := s.setSignaler e ⟨false, false⟩) (e := e) .waiting
        simp only [hpc, ExecutorPc.weight] at hload
        omega
  | @isPending e pending hpc =>
      cases pending with
      | true => exact absurd ha id
      | false =>
          have hload := load_setPc (s := s) (e := e) .fetching
          simp only [hpc, ExecutorPc.weight] at hload
          change (s.setPc e .fetching).load < _
          omega
  | @handled e hpc hc =>
      have hload := load_setPc (s := s) (e := e) .fetching
      simp only [hpc, ExecutorPc.weight] at hload
      omega
  | @nextTask e task hpc hq =>
      have hload := load_setPc (s := s) (e := e) (.executing task)
      have hlength := List.length_erase_add_one hq
      simp only [hpc, ExecutorPc.weight] at hload
      have htasks : ({ s.setPc e (.executing task) with runQueue := s.runQueue.erase task } :
          ExecutionModel n τ κ).load + 3 = (s.setPc e (.executing task)).load := by
        simp only [load, setPc]
        omega
      omega
  | @noTask e hpc hq =>
      have hload := load_setPc (s := s) (e := e) .closing
      simp only [hpc, ExecutorPc.weight] at hload
      omega
  | @executed e task hpc hc =>
      have hload := load_setPc (s := s) (e := e) .checking
      simp only [hpc, ExecutorPc.weight] at hload
      omega
  | @enlist e hpc =>
      have hload := load_setPc (s := s) (e := e) .enlisted
      simp only [hpc, ExecutorPc.weight] at hload
      have hempty := Bool.toNat_le (s.emptySignal.signal (s.waiter ≠ .outside)).signalled
      have hnotice : ({ s.setPc e .enlisted with
          freeExecutors := e :: s.freeExecutors
          emptySignal := s.emptySignal.signal (s.waiter ≠ .outside) } : ExecutionModel n τ κ).load ≤
            (s.setPc e .enlisted).load + 1 := by
        simp only [load, setPc]
        omega
      omega
  | @resumeWaiter k hwaiter hsignalled =>
      simp only [load, hsignalled, Bool.toNat_true, Bool.toNat_false]
      omega

/-- A queued task makes a thread signal and an executor fetch. -/
theorem load_queue {c : κ ⊕ Fin n} {task : τ} (hstep : Step s (.queue c task) t) :
    t.load = s.load + 11 := by
  cases step_acts hstep with
  | queue hc =>
      have hload := load_setCaller (s := s) (c := c) .queued
      simp only [hc, CallerPc.weight] at hload
      have hqueue : ({ s.setCaller c .queued with
        runQueue := s.runQueue ++ [task] } : ExecutionModel n τ κ).load =
          (s.setCaller c .queued).load + 3 := by
        simp only [load, setCaller, List.length_append, List.length_singleton]
        omega
      omega

end Load

section Rest

variable {s t : ExecutionModel n τ κ} {a : ExecutionAction n τ κ} {acts : List (ExecutionAction n τ κ)}

private theorem Alert.setPc (h : Alert s) {e : Fin n} (pc : ExecutorPc τ)
    (he : pc = .waiting ∨ s.pc e ≠ .waiting) : Alert (s.setPc e pc) := by
  intro f hf
  have hbefore := h f hf
  by_cases hfe : f = e
  · subst f
    refine ⟨?_, hbefore.2⟩
    rcases he with he | he
    · simpa [ExecutionModel.setPc] using he
    · exact absurd hbefore.1 he
  · exact ⟨by simpa [ExecutionModel.setPc, hfe] using hbefore.1, hbefore.2⟩

private theorem queuedTasks_append (later : List (ExecutionAction n τ κ)) :
    queuedTasks (acts ++ later) = queuedTasks acts ++ queuedTasks later :=
  List.filterMap_append

private theorem fetchedTasks_append (later : List (ExecutionAction n τ κ)) :
    fetchedTasks (acts ++ later) = fetchedTasks acts ++ fetchedTasks later :=
  List.filterMap_append

variable [DecidableEq τ] [DecidableEq κ]

theorem Alert.step (h : Alert s) (hparks : Parks s) (hstep : Step s a t) : Alert t := by
  cases step_acts hstep with
  | queue | request | choose | drop | waitUntilEmpty | resumeWaiter => exact h
  | @wakeUp c e hc hpc =>
      have hwaiting : s.pc e = .waiting :=
        (hparks.targeted_parked e (Or.inl ⟨c, hc⟩)).resolve_right hpc
      intro f hf
      by_cases hfe : f = e
      · subst f
        exact ⟨hwaiting, by simp [ExecutionModel.setCaller, setSignaler, Signaler.signal, hwaiting]⟩
      · simp only [ExecutionModel.setCaller, setSignaler, Function.update_of_ne hfe] at hf ⊢
        exact h f hf
  | @resume e hpc hsignalled =>
      intro f hf
      by_cases hfe : f = e
      · simp [ExecutionModel.setPc, setSignaler, hfe] at hf
      · simp only [ExecutionModel.setPc, setSignaler, Function.update_of_ne hfe] at hf ⊢
        exact h f hf
  | wait => exact h.setPc _ (Or.inl rfl)
  | isPending hpc => exact h.setPc _ (Or.inr (by simp [hpc]))
  | handled hpc => exact h.setPc _ (Or.inr (by simp [hpc]))
  | @nextTask e task hpc => exact h.setPc (.executing task) (Or.inr (by simp [hpc]))
  | noTask hpc => exact h.setPc _ (Or.inr (by simp [hpc]))
  | executed hpc => exact h.setPc _ (Or.inr (by simp [hpc]))
  | enlist hpc => exact h.setPc .enlisted (Or.inr (by simp [hpc]))

/-- A queued task is handed out to an executor or still in the run queue. -/
theorem run_queuedTasks (h : Run Step (init : ExecutionModel n τ κ) acts s) :
    (queuedTasks acts).Perm (fetchedTasks acts ++ s.runQueue) := by
  induction h with
  | start => exact List.Perm.nil
  | @next l s a t _ hstep ih =>
      rw [queuedTasks_append, fetchedTasks_append]
      cases step_acts hstep with
      | @queue c task =>
          simpa [queuedTasks, fetchedTasks] using ih.append_right [task]
      | @nextTask e task hpc hq =>
          have herase := (List.perm_cons_erase hq).append_left (fetchedTasks l)
          simpa [queuedTasks, fetchedTasks] using ih.trans herase
      | @isPending e pending =>
          cases pending <;> simpa [queuedTasks, fetchedTasks, setPc] using ih
      | _ => simpa [queuedTasks, fetchedTasks, setPc, setCaller, setSignaler] using ih

/-- A thread that can go on neither in `signal` nor in the list of free executors is outside of both. -/
theorem idle_of_stuck (hn : 0 < n) (henlist : ∀ e, s.step (.enlist e) = none)
    (hwait : ∀ e, s.step (.wait e) = none)
    (hsignal : ∀ c, Heard s (.signal c) → s.step (.signal c) = none)
    (hwakeUp : ∀ c, s.step (.wakeUp c) = none) :
    (∀ e, s.pc e ≠ .closing ∧ s.pc e ≠ .enlisted) ∧ ∀ c, s.caller c = .idle := by
  have hclosing : ∀ e, s.pc e ≠ .closing := fun e he => by simpa [step, he] using henlist e
  have henlisted : ∀ e, s.pc e ≠ .enlisted := fun e he => by simpa [step, he] using hwait e
  have hrequest : ∀ c, ¬ (s.caller c = .queued ∨ s.caller c = .requested) := by
    intro c hc
    have hnone := hsignal c fun _ _ _ => ⟨⟨0, hn⟩, hclosing _⟩
    cases hfree : s.freeExecutors <;> simp [step, hc, hfree] at hnone
  refine ⟨fun e => ⟨hclosing e, henlisted e⟩, fun c => ?_⟩
  cases hc : s.caller c with
  | idle => rfl
  | queued => exact absurd (Or.inl hc) (hrequest c)
  | requested => exact absurd (Or.inr hc) (hrequest c)
  | chosen e => simpa [step, hc, henlisted] using hwakeUp c

/-- What is left to do when nothing can happen any more: nothing. -/
theorem Inv.atRest (h : Inv s) (halert : Alert s) (hn : 0 < n)
    (hrest : AtRest (fun s a t => Step s a t ∧ Heard s a ∧ Internal a) s) :
    s.runQueue = [] ∧ (∀ c, s.caller c = .idle) ∧ ∀ e, s.pc e = .waiting ∧ e ∈ s.freeExecutors := by
  have hstuck : ∀ a, Heard s a → Internal a → s.step a = none := by
    intro a hheard hinternal
    refine Option.eq_none_iff_forall_ne_some.mpr fun t ht => ?_
    exact hrest a t ⟨ht, hheard, hinternal⟩
  obtain ⟨hplace, hidle⟩ := idle_of_stuck hn (fun e => hstuck (.enlist e) trivial trivial)
    (fun e => hstuck (.wait e) trivial trivial) (fun c hc => hstuck (.signal c) hc trivial)
    (fun c => hstuck (.wakeUp c) trivial trivial)
  have hwaiting : ∀ e, s.pc e = .waiting := by
    intro e
    cases hpc : s.pc e with
    | waiting => rfl
    | enlisted => exact absurd hpc (hplace e).2
    | closing => exact absurd hpc (hplace e).1
    | checking => simpa [step, hpc] using hstuck (.isPending e false) trivial trivial
    | handling => simpa [step, hpc, hidle] using hstuck (.handled e) trivial trivial
    | executing task => simpa [step, hpc, hidle] using hstuck (.executed e) trivial trivial
    | fetching =>
        cases hq : s.runQueue with
        | nil => simpa [step, hpc, hq] using hstuck (.nextTask e none) trivial trivial
        | cons task rest =>
            simpa [step, hpc, hq] using hstuck (.nextTask e (some task)) trivial trivial
  have hfree : ∀ e, e ∈ s.freeExecutors := by
    intro e
    rcases h.parked_reached e (Or.inl (hwaiting e)) with hfree | ⟨c, hc⟩ | hw
    · exact hfree
    · simp [hidle c] at hc
    · have hnone := hstuck (.resume e) trivial trivial
      simp [step, hwaiting e, Signaler.resume, (halert e hw).2] at hnone
  refine ⟨?_, hidle, fun e => ⟨hwaiting e, hfree e⟩⟩
  by_contra hq
  rcases h.served hq with ⟨c, hc⟩ | ⟨e, he⟩
  · simp [hidle c] at hc
  · exact he.1 (hfree e)

/-- The steps that are left when no new work comes: those of the executors, and of the threads
inside `signal` and `waitUntilEmpty`. -/
def InternalStep (s : ExecutionModel n τ κ) (a : ExecutionAction n τ κ) (t : ExecutionModel n τ κ) :
    Prop :=
  Step s a t ∧ Heard s a ∧ Internal a

private theorem queuedTasks_internal (h : Run InternalStep s acts t) : queuedTasks acts = [] := by
  induction h with
  | start => rfl
  | @next l t a u _ hstep ih =>
      rw [queuedTasks_append, ih]
      cases a with
      | queue => exact absurd hstep.2.2 id
      | _ => rfl

/-- Work that is left alone comes to an end: from every state that a run reaches without a dropped
request, the steps that bring no new work are bounded by the load, they lead to rest, and at rest
the run queue is empty, no thread is inside `signal`, every executor waits in `freeExecutors`, and
the queued tasks are those that were handed out. -/
theorem run_internal [Fintype κ] {later : List (ExecutionAction n τ κ)} (hn : 0 < n)
    (h : Run (fun s a t => Step s a t ∧ Heard s a) init acts s) (hlater : Run InternalStep s later t) :
    later.length + t.load ≤ s.load ∧
      (∃ more u, Run InternalStep t more u ∧ AtRest InternalStep u) ∧
      (AtRest InternalStep t → t.runQueue = [] ∧ (∀ c, t.caller c = .idle) ∧
        (∀ e, t.pc e = .waiting ∧ e ∈ t.freeExecutors) ∧
        (queuedTasks acts).Perm (fetchedTasks (acts ++ later))) := by
  have hlowers : Lowers (InternalStep (n := n) (τ := τ) (κ := κ)) (fun _ => True) load :=
    ⟨fun _ _ => trivial, fun _ hs => load_lt hs.2.2 hs.1⟩
  refine ⟨hlowers.length_add_le trivial hlater, hlowers.exists_atRest trivial, fun hrest => ?_⟩
  have hheard := h.append (hlater.mono fun _ _ _ hs => ⟨hs.1, hs.2.1⟩)
  have halert : Parks t ∧ Alert t :=
    hheard.invariant (I := fun s => Parks s ∧ Alert s) ⟨inv_init.parks, nofun⟩ fun _ _ _ hi hs =>
      ⟨hi.1.step hs.1, hi.2.step hi.1 hs.1⟩
  rcases (run_inv hheard).atRest halert.2 hn hrest with ⟨hq, hidle, hwaiting⟩
  have htasks := run_queuedTasks (hheard.mono fun _ _ _ hs => hs.1)
  rw [queuedTasks_append, queuedTasks_internal hlater, hq, List.append_nil, List.append_nil] at htasks
  exact ⟨hq, hidle, hwaiting, htasks⟩

theorem run_internal_one :
    ∃ (s t : ExecutionModel 1 Nat Unit) (later : List (ExecutionAction 1 Nat Unit)),
      Run (fun s a t => Step s a t ∧ Heard s a) init [.queue (.inl ()) 5] s ∧
        Run InternalStep s later t ∧
        later.length ≤ 11 ∧ t.runQueue = [] ∧ fetchedTasks (.queue (.inl ()) 5 :: later) = [5] := by
  have hstart : Run (fun (s : ExecutionModel 1 Nat Unit) a t => Step s a t ∧ Heard s a) init
      [.queue (.inl ()) 5] _ := Run.start.next ⟨rfl, trivial⟩
  rcases (run_internal (by decide) hstart .start).2.1 with ⟨later, t, hlater, hrest⟩
  rcases run_internal (by decide) hstart hlater with ⟨hlength, _, hend⟩
  rcases hend hrest with ⟨hq, _, _, htasks⟩
  refine ⟨_, t, later, hstart, hlater, ?_, hq, (List.singleton_perm.mp htasks).symm⟩
  exact le_of_add_le_left (hlength.trans (by decide))

end Rest

end ExecutionModel

end TaskingFramework
