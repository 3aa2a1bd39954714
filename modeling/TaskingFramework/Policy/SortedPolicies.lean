import TaskingFramework.Foundation.Chain
import TaskingFramework.Policy.RunQueue

/-!
# Policies with one list

`SchedulePolicyPriority` keeps its run queue as one list, ordered by priority. `SchedulePolicyFifo`
hangs each task behind the last one, which is the same order where all tasks have the same priority.
-/

set_option linter.unusedSectionVars false

namespace TaskingFramework

open Foundation

variable {τ : Type} [DecidableEq τ]

/-- `head` and the `next` pointers in the management data of all tasks. -/
structure SchedulePolicyPriority (τ : Type) where
  next : τ → Option τ
  head : Option τ

namespace SchedulePolicyPriority

def init : SchedulePolicyPriority τ := ⟨fun _ => none, none⟩

/-- The loop of `queue`: the tasks between which a task of the given priority goes. -/
def searchPosition (s : SchedulePolicyPriority τ) (priority : τ → Nat) (own : Nat) :
    Nat → τ → Option τ → Outcome (τ × Option τ)
  | 0, _, _ => .error .outOfFuel
  | _ + 1, previous, none => .ok (previous, none)
  | fuel + 1, previous, some next =>
      if own ≤ priority next then searchPosition s priority own fuel next (s.next next)
      else .ok (previous, some next)

def queue (priority : τ → Nat) (fuel : Nat) (task : τ) (s : SchedulePolicyPriority τ) :
    Outcome (SchedulePolicyPriority τ × Bool) :=
  match s.head with
  | some head =>
      if priority head < priority task then
        .ok (⟨Function.update s.next task (some head), some task⟩, false)
      else do
        let (previous, next) ← s.searchPosition priority (priority task) fuel head (s.next head)
        return (⟨Function.update (Function.update s.next task next) previous (some task),
          some head⟩, false)
  | none => .ok (⟨Function.update s.next task none, some task⟩, true)

def nextTask (s : SchedulePolicyPriority τ) : Outcome (SchedulePolicyPriority τ × Option τ) :=
  match s.head with
  | some head => .ok (⟨s.next, s.next head⟩, some head)
  | none => .ok (s, none)

def policy (priority : τ → Nat) : LinkedPolicy τ (SchedulePolicyPriority τ) where
  queue := queue priority
  nextTask := nextTask

structure Ordered (priority : τ → Nat) (s : SchedulePolicyPriority τ) (q : List τ) : Prop where
  chain : Chain s.next s.head q
  descending : Descending priority q

variable {s : SchedulePolicyPriority τ} {priority : τ → Nat} {p : Option τ} {own : Nat}
  {q l m : List τ} {task previous : τ}

theorem ordered_init : Ordered priority init [] := ⟨rfl, List.Pairwise.nil⟩

private theorem searchPosition_returns (h : Chain s.next p (l ++ previous :: m))
    (hprevious : priority task ≤ priority previous) :
    ∃ k b n, previous :: m = k ++ b :: n ∧ enter priority task (previous :: m) = k ++ b :: task :: n ∧
      Returns (s.searchPosition priority (priority task) · previous m.head?) (b, n.head?) := by
  induction m generalizing l previous with
  | nil =>
      refine ⟨[], previous, [], rfl, ?_, ?_⟩
      · rw [enter_cons_of_le hprevious]
        rfl
      · exact (returns_ok _).step fun fuel => rfl
  | cons c m ih =>
      rw [enter_cons_of_le hprevious]
      by_cases hc : priority task ≤ priority c
      · have h' : Chain s.next p ((l ++ [previous]) ++ c :: m) := by simpa using h
        obtain ⟨k, b, n, hsplit, henter, hret⟩ := ih h' hc
        refine ⟨previous :: k, b, n, by rw [hsplit]; rfl, by rw [henter]; rfl, ?_⟩
        apply hret.step
        intro fuel
        rw [← h'.next_eq]
        simp only [searchPosition, List.head?_cons, if_pos hc]
      · refine ⟨[], previous, c :: m, rfl, ?_, ?_⟩
        · rw [enter_cons_of_lt (Nat.lt_of_not_le hc)]
          rfl
        · apply (returns_ok _).step
          intro fuel
          simp only [searchPosition, List.head?_cons, if_neg hc]

private theorem Ordered.queue (h : Ordered priority s q) (htask : task ∉ q) :
    ∃ t, Returns (queue priority · task s) (t, q.isEmpty) ∧
      Ordered priority t (enter priority task q) := by
  cases q with
  | nil =>
      have hhead : s.head = none := h.chain
      refine ⟨⟨Function.update s.next task none, some task⟩, ?_, ?_, h.descending.enter⟩
      · simp only [SchedulePolicyPriority.queue, hhead]
        exact returns_ok _
      · exact ⟨rfl, by simp⟩
  | cons head q =>
      have hhead : s.head = some head := h.chain.1
      by_cases hlt : priority head < priority task
      · refine ⟨⟨Function.update s.next task (some head), some task⟩, ?_, ?_, h.descending.enter⟩
        · simp only [SchedulePolicyPriority.queue, hhead, if_pos hlt]
          exact returns_ok _
        · rw [enter_cons_of_lt hlt, ← hhead]
          exact h.chain.push htask
      · have hchain := h.chain
        obtain ⟨k, b, n, hsplit, henter, hret⟩ :=
          searchPosition_returns (l := []) hchain (Nat.le_of_not_lt hlt)
        have hnext : s.next head = q.head? := Chain.next_eq (l := []) hchain
        refine ⟨⟨Function.update (Function.update s.next task n.head?) b (some task), some head⟩,
          ?_, ?_, h.descending.enter⟩
        · simp only [SchedulePolicyPriority.queue, hhead, if_neg hlt, hnext]
          exact hret.bind (returns_ok _)
        · rw [hsplit] at hchain htask
          rw [henter, ← hchain.next_eq, ← hhead]
          exact hchain.insert htask

private theorem Ordered.nextTask (h : Ordered priority s q) :
    ∃ t, nextTask s = .ok (t, q.head?) ∧ Ordered priority t q.tail := by
  cases q with
  | nil =>
      have hhead : s.head = none := h.chain
      exact ⟨s, by simp only [SchedulePolicyPriority.nextTask, hhead, List.head?_nil], h⟩
  | cons a q =>
      obtain ⟨hhead, hchain⟩ := h.chain
      exact ⟨⟨s.next, s.next a⟩, by simp only [SchedulePolicyPriority.nextTask, hhead, List.head?_cons],
        hchain, h.descending.tail⟩

theorem implements (priority : τ → Nat) :
    Implements (policy priority) priority (Ordered priority) where
  queue _ _ _ h htask := h.queue htask
  nextTask _ _ h := h.nextTask

end SchedulePolicyPriority

structure SchedulePolicyFifo (τ : Type) where
  next : τ → Option τ
  head : Option τ
  tail : Option τ

namespace SchedulePolicyFifo

def init : SchedulePolicyFifo τ := ⟨fun _ => none, none, none⟩

def queue (_ : Nat) (task : τ) (s : SchedulePolicyFifo τ) : Outcome (SchedulePolicyFifo τ × Bool) :=
  let next := Function.update s.next task none
  match s.head with
  | none => .ok (⟨next, some task, some task⟩, true)
  | some head => do
      let tail ← deref s.tail
      return (⟨Function.update next tail (some task), some head, some task⟩, false)

def nextTask (s : SchedulePolicyFifo τ) : Outcome (SchedulePolicyFifo τ × Option τ) :=
  match s.head with
  | some head =>
      .ok (⟨s.next, s.next head, if s.next head = none then none else s.tail⟩, some head)
  | none => .ok (s, none)

def policy : LinkedPolicy τ (SchedulePolicyFifo τ) where
  queue := queue
  nextTask := nextTask

structure Queued (s : SchedulePolicyFifo τ) (q : List τ) : Prop where
  chain : Chain s.next s.head q
  tail : s.tail = q.getLast?

variable {s : SchedulePolicyFifo τ} {priority : τ → Nat} {q : List τ} {task : τ}

theorem queued_init : Queued (init : SchedulePolicyFifo τ) [] := ⟨rfl, rfl⟩

private theorem Queued.queue (h : Queued s q) (htask : task ∉ q) :
    ∃ t, Returns (queue · task s) (t, q.isEmpty) ∧ Queued t (q ++ [task]) := by
  rcases List.eq_nil_or_concat q with rfl | ⟨m, b, hq⟩
  · have hhead : s.head = none := h.chain
    refine ⟨⟨Function.update s.next task none, some task, some task⟩, ?_, ?_, rfl⟩
    · simp only [SchedulePolicyFifo.queue, hhead]
      exact returns_ok _
    · exact ⟨rfl, by simp⟩
  · obtain rfl : q = m ++ [b] := by simpa using hq
    have htail : s.tail = some b := by simpa using h.tail
    obtain ⟨head, hhead⟩ : ∃ head, s.head = some head := by
      rw [h.chain.head]
      exact ⟨_, List.head?_eq_some_head (by simp)⟩
    refine ⟨⟨Function.update (Function.update s.next task none) b (some task), some head,
      some task⟩, ?_, ?_, by simp⟩
    · have hempty : (m ++ [b]).isEmpty = false := by simp
      simp only [SchedulePolicyFifo.queue, hhead, htail, hempty]
      exact returns_ok _
    · have hchain := h.chain.snoc htask
      rw [hhead] at hchain
      simpa using hchain

private theorem Queued.nextTask (h : Queued s q) :
    ∃ t, nextTask s = .ok (t, q.head?) ∧ Queued t q.tail := by
  cases q with
  | nil =>
      have hhead : s.head = none := h.chain
      exact ⟨s, by simp only [SchedulePolicyFifo.nextTask, hhead, List.head?_nil], h⟩
  | cons a q =>
      obtain ⟨hhead, hchain⟩ := h.chain
      refine ⟨⟨s.next, s.next a, if s.next a = none then none else s.tail⟩,
        by simp only [SchedulePolicyFifo.nextTask, hhead, List.head?_cons], hchain, ?_⟩
      show (if s.next a = none then none else s.tail) = q.getLast?
      rw [Chain.head hchain]
      cases q with
      | nil => rfl
      | cons b q =>
          rw [if_neg (by simp), h.tail]
          rfl

theorem implements (hpriority : ∀ t u, priority t = priority u) :
    Implements policy priority (Queued (τ := τ)) where
  queue _ _ task h htask := by
    obtain ⟨t, hret, ht⟩ := h.queue htask
    refine ⟨t, hret, ?_⟩
    rw [enter_of_le fun b _ => (hpriority task b).le]
    exact ht
  nextTask _ _ h := h.nextTask

end SchedulePolicyFifo

end TaskingFramework
