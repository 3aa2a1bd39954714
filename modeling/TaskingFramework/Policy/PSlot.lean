import TaskingFramework.Policy.SortedPolicies

/-!
# Priority slots

`SchedulePolicyPSlot` has a first in, first out queue for each priority below the number of slots, and
remembers the highest slot with a task. All slots are empty exactly when this is the number of slots.
-/

set_option linter.unusedSectionVars false

namespace TaskingFramework

open Foundation

variable {τ : Type} [DecidableEq τ]

/-- The `next` pointers in the management data of all tasks and the heads and tails of the slots. -/
structure SchedulePolicyPSlot (τ : Type) where
  next : τ → Option τ
  head : Nat → Option τ
  tail : Nat → Option τ
  highestPriorSlot : Nat
  maxPrioritySlot : Nat

namespace SchedulePolicyPSlot

def init (numberOfSlots : Nat) : SchedulePolicyPSlot τ where
  next := fun _ => none
  head := fun _ => none
  tail := fun _ => none
  highestPriorSlot := numberOfSlots
  maxPrioritySlot := numberOfSlots

/-- The priority, limited to the highest slot. -/
def slot (priority : τ → Nat) (maxPrioritySlot : Nat) (task : τ) : Nat :=
  if maxPrioritySlot ≤ priority task then maxPrioritySlot - 1 else priority task

def queue (priority : τ → Nat) (_ : Nat) (task : τ) (s : SchedulePolicyPSlot τ) :
    Outcome (SchedulePolicyPSlot τ × Bool) := do
  let next := Function.update s.next task none
  let slot := slot priority s.maxPrioritySlot task
  let isEmpty := s.highestPriorSlot == s.maxPrioritySlot
  let highest := if isEmpty || decide (s.highestPriorSlot < slot) then slot else s.highestPriorSlot
  match s.head slot with
  | none =>
      return ({ s with
        next := next
        head := Function.update s.head slot (some task)
        tail := Function.update s.tail slot (some task)
        highestPriorSlot := highest }, isEmpty)
  | some _ =>
      let tail ← deref (s.tail slot)
      return ({ s with
        next := Function.update next tail (some task)
        tail := Function.update s.tail slot (some task)
        highestPriorSlot := highest }, isEmpty)

/-- The loop of `nextTask`: the next slot from `i` downwards with a task, or the number of slots. -/
def searchSlot (head : Nat → Option τ) (maxPrioritySlot : Nat) : Nat → Nat
  | 0 => if head 0 = none then maxPrioritySlot else 0
  | i + 1 => if head (i + 1) = none then searchSlot head maxPrioritySlot i else i + 1

def nextTask (s : SchedulePolicyPSlot τ) : Outcome (SchedulePolicyPSlot τ × Option τ) := do
  if s.highestPriorSlot < s.maxPrioritySlot then
    let result ← deref (s.head s.highestPriorSlot)
    let s := { s with head := Function.update s.head s.highestPriorSlot (s.next result) }
    if s.head s.highestPriorSlot = none then
      return ({ s with
        tail := Function.update s.tail s.highestPriorSlot none
        highestPriorSlot := searchSlot s.head s.maxPrioritySlot s.highestPriorSlot }, some result)
    else return (s, some result)
  else return (s, none)

def policy (priority : τ → Nat) : LinkedPolicy τ (SchedulePolicyPSlot τ) where
  queue := queue priority
  nextTask := nextTask

/-- The slot of the first task, or the number of slots where there is none. -/
def highest (priority : τ → Nat) (n : Nat) (q : List τ) : Nat := (q.head?.map priority).getD n

/-- Each slot holds the tasks of its priority. -/
structure Slotted (priority : τ → Nat) (n : Nat) (s : SchedulePolicyPSlot τ) (q : List τ) : Prop where
  chain : ∀ i, Chain s.next (s.head i) (q.filter (priority · = i))
  tail : ∀ i, s.tail i = (q.filter (priority · = i)).getLast?
  highest : s.highestPriorSlot = highest priority n q
  slots : s.maxPrioritySlot = n
  descending : Descending priority q

variable {s : SchedulePolicyPSlot τ} {priority : τ → Nat} {n i : Nat} {q : List τ} {task a : τ}
  {head : Nat → Option τ}

private theorem slot_eq (hn : 0 < n) (task : τ) :
    slot priority n task = min (priority task) (n - 1) := by
  unfold slot
  split <;> omega

private theorem slot_lt (hn : 0 < n) (task : τ) : slot priority n task < n := by
  rw [slot_eq hn]
  omega

private theorem slotted_init : Slotted priority n (init n) [] where
  chain := fun _ => rfl
  tail := fun _ => rfl
  highest := rfl
  slots := rfl
  descending := List.Pairwise.nil

private theorem searchSlot_eq (hchain : ∀ i, head i = none ↔ ∀ t ∈ q, priority t ≠ i)
    (hdescending : Descending priority q) (hle : ∀ t ∈ q, priority t ≤ i) :
    searchSlot head n i = highest priority n q := by
  induction i with
  | zero =>
      cases q with
      | nil =>
          have hnone : head 0 = none := (hchain 0).mpr (by simp)
          simp [searchSlot, hnone, highest]
      | cons a q =>
          have ha : priority a = 0 := Nat.le_zero.mp (hle a List.mem_cons_self)
          have hsome : head 0 ≠ none := fun hnone => (hchain 0).mp hnone a List.mem_cons_self ha
          simp [searchSlot, hsome, highest, ha]
  | succ i ih =>
      rw [searchSlot]
      by_cases hnone : head (i + 1) = none
      · rw [if_pos hnone]
        apply ih
        intro t ht
        have hne := (hchain (i + 1)).mp hnone t ht
        have hle := hle t ht
        omega
      · rw [if_neg hnone]
        have hmem : ∃ t ∈ q, priority t = i + 1 := by
          by_contra hnot
          apply hnone
          rw [hchain]
          intro t ht heq
          exact hnot ⟨t, ht, heq⟩
        obtain ⟨t, ht, heq⟩ := hmem
        cases q with
        | nil => exact absurd ht List.not_mem_nil
        | cons a q =>
            have hle := hle a List.mem_cons_self
            have hge := hdescending.le_head ht
            show i + 1 = priority a
            omega

@[simp] theorem highest_nil : highest priority n [] = n := rfl

@[simp] theorem highest_cons : highest priority n (a :: q) = priority a := rfl

private theorem highest_enter : highest priority n (enter priority task q) =
    if q = [] ∨ highest priority n q < priority task then priority task
    else highest priority n q := by
  cases q with
  | nil => rfl
  | cons a q =>
      rw [highest_cons]
      by_cases hlt : priority a < priority task
      · rw [enter_cons_of_lt hlt, if_pos (Or.inr hlt), highest_cons]
      · rw [enter_cons_of_le (Nat.le_of_not_lt hlt), if_neg (by simp [hlt]), highest_cons]

private theorem Slotted.highest_eq (h : Slotted priority n s q) (hpriority : ∀ t, priority t < n) :
    s.highestPriorSlot = n ↔ q = [] := by
  rw [h.highest]
  cases q with
  | nil => simp
  | cons a q =>
      have ha := hpriority a
      simp
      omega

private theorem Slotted.chain_update (h : Slotted priority n s q) (htask : task ∉ q) (v : Option τ) :
    Chain (Function.update s.next task v) (s.head i) (q.filter (priority · = i)) :=
  (h.chain i).update (fun hmem => htask (List.mem_of_mem_filter hmem)) v

private theorem Slotted.entered (h : Slotted priority n s q) {next : τ → Option τ}
    (hchain : ∀ i, Chain next (head i) ((enter priority task q).filter (priority · = i))) :
    Slotted priority n ⟨next, head, Function.update s.tail (priority task) (some task),
      SchedulePolicyPSlot.highest priority n (enter priority task q), n⟩ (enter priority task q) := by
  refine ⟨hchain, ?_, rfl, rfl, h.descending.enter⟩
  intro i
  by_cases hi : priority task = i
  · subst hi
    show Function.update s.tail (priority task) (some task) (priority task) = _
    rw [Function.update_self, h.descending.filter_enter, List.getLast?_concat]
  · show Function.update s.tail (priority task) (some task) i = _
    rw [Function.update_of_ne (Ne.symm hi), filter_enter_of_ne hi]
    exact h.tail i

private theorem Slotted.enter_first (h : Slotted priority n s q) (htask : task ∉ q)
    (hhead : s.head (priority task) = none) (i : Nat) :
    Chain (Function.update s.next task none)
      (Function.update s.head (priority task) (some task) i)
      ((enter priority task q).filter (priority · = i)) := by
  by_cases hi : priority task = i
  · subst hi
    have hnil : q.filter (priority · = priority task) = [] := by
      have hchain := h.chain (priority task)
      rw [hhead] at hchain
      exact hchain.eq_nil
    rw [Function.update_self, h.descending.filter_enter, hnil]
    exact ⟨rfl, by simp⟩
  · rw [Function.update_of_ne (Ne.symm hi), filter_enter_of_ne hi]
    exact h.chain_update htask none

private theorem Slotted.enter_behind (h : Slotted priority n s q) (htask : task ∉ q) {b : τ}
    (hb : s.tail (priority task) = some b) (i : Nat) :
    Chain (Function.update (Function.update s.next task none) b (some task)) (s.head i)
      ((enter priority task q).filter (priority · = i)) := by
  rw [h.tail] at hb
  obtain ⟨m, hm⟩ := List.getLast?_eq_some_iff.mp hb
  by_cases hi : priority task = i
  · subst hi
    have hnot : task ∉ m ++ [b] := fun hmem => htask (List.mem_of_mem_filter (hm ▸ hmem))
    have hchain := h.chain (priority task)
    rw [hm] at hchain
    rw [h.descending.filter_enter, hm, List.append_assoc]
    exact hchain.snoc hnot
  · have hpriority : priority b = priority task := by
      have hmem : b ∈ q.filter (priority · = priority task) := hm ▸ List.mem_concat_self
      simpa using List.of_mem_filter hmem
    rw [filter_enter_of_ne hi]
    apply (h.chain_update htask none).update
    intro hmem
    have heq : priority b = i := by simpa using List.of_mem_filter hmem
    exact hi (hpriority.symm.trans heq)

private theorem Slotted.highest_enter (h : Slotted priority n s q) (hpriority : ∀ t, priority t < n)
    (task : τ) :
    (if s.highestPriorSlot == n || decide (s.highestPriorSlot < priority task) then priority task
      else s.highestPriorSlot) =
      SchedulePolicyPSlot.highest priority n (enter priority task q) := by
  rw [SchedulePolicyPSlot.highest_enter, ← h.highest]
  simp only [Bool.or_eq_true, beq_iff_eq, decide_eq_true_eq, h.highest_eq hpriority]

private theorem Slotted.queue (h : Slotted (slot priority n) n s q) (hn : 0 < n) (htask : task ∉ q) :
    ∃ t, Returns (queue priority · task s) (t, q.isEmpty) ∧
      Slotted (slot priority n) n t (enter (slot priority n) task q) := by
  have hslot : ∀ t, slot priority n t < n := slot_lt hn
  have hempty : (s.highestPriorSlot == n) = q.isEmpty := by
    rw [Bool.eq_iff_iff, beq_iff_eq, h.highest_eq hslot, List.isEmpty_iff]
  have hhighest := h.highest_enter hslot task
  cases hhead : s.head (slot priority n task) with
  | none =>
      refine ⟨_, ?_, h.entered (h.enter_first htask hhead)⟩
      simp only [SchedulePolicyPSlot.queue, h.slots, hhead]
      rw [hhighest, hempty]
      exact returns_ok _
  | some first =>
      have hne : q.filter (slot priority n · = slot priority n task) ≠ [] := by
        intro hnil
        have hchain := h.chain (slot priority n task)
        rw [hnil, hhead] at hchain
        exact absurd hchain (by simp)
      obtain ⟨b, hb⟩ := Option.ne_none_iff_exists'.mp (mt List.getLast?_eq_none_iff.mp hne)
      rw [← h.tail] at hb
      refine ⟨_, ?_, h.entered (h.enter_behind htask hb)⟩
      simp only [SchedulePolicyPSlot.queue, h.slots, hhead, hb, deref_some, ok_bind]
      rw [hhighest, hempty]
      exact returns_ok _

private theorem Slotted.removed (h : Slotted priority n s (a :: q)) (i : Nat) :
    Chain s.next (Function.update s.head (priority a) (s.next a) i) (q.filter (priority · = i)) ∧
      (i ≠ priority a ∨ s.next a ≠ none → s.tail i = (q.filter (priority · = i)).getLast?) := by
  have hchain := h.chain i
  have htail := h.tail i
  by_cases hi : priority a = i
  · subst hi
    rw [List.filter_cons_of_pos (by simp)] at hchain htail
    rw [Function.update_self]
    refine ⟨hchain.2, ?_⟩
    intro hsome
    have hne : s.next a ≠ none := hsome.resolve_left fun hne => hne rfl
    rw [htail]
    cases hfilter : q.filter (priority · = priority a) with
    | nil =>
        rw [hfilter] at hchain
        exact absurd hchain.2 hne
    | cons b m => rfl
  · rw [List.filter_cons_of_neg (by simpa using hi)] at hchain htail
    rw [Function.update_of_ne (Ne.symm hi)]
    exact ⟨hchain, fun _ => htail⟩

private theorem Slotted.highest_tail (h : Slotted priority n s (a :: q)) (hnext : s.next a ≠ none) :
    SchedulePolicyPSlot.highest priority n q = priority a := by
  obtain ⟨hchain, _⟩ := h.removed (priority a)
  rw [Function.update_self] at hchain
  have hne : q.filter (priority · = priority a) ≠ [] := by
    intro hnil
    rw [hnil] at hchain
    exact hnext hchain
  obtain ⟨t, ht⟩ := List.exists_mem_of_ne_nil _ hne
  have hmem : t ∈ q := List.mem_of_mem_filter ht
  have heq : priority t = priority a := by simpa using List.of_mem_filter ht
  cases q with
  | nil => exact absurd hmem List.not_mem_nil
  | cons b q =>
      have hle := h.descending.le_head (List.mem_cons_of_mem a List.mem_cons_self)
      have hge := h.descending.tail.le_head hmem
      rw [highest_cons]
      omega

private theorem Slotted.nextTask (h : Slotted priority n s q) (hpriority : ∀ t, priority t < n) :
    ∃ t, nextTask s = .ok (t, q.head?) ∧ Slotted priority n t q.tail := by
  have hhighest := h.highest
  cases q with
  | nil =>
      rw [highest_nil] at hhighest
      refine ⟨s, ?_, h⟩
      simp only [SchedulePolicyPSlot.nextTask, h.slots, hhighest, lt_irrefl, if_false]
      rfl
  | cons a q =>
      rw [highest_cons] at hhighest
      have hlt := hpriority a
      have hhead : s.head (priority a) = some a := by
        have hchain := h.chain (priority a)
        rw [List.filter_cons_of_pos (by simp)] at hchain
        exact hchain.1
      by_cases hnext : s.next a = none
      · refine ⟨{ s with
          head := Function.update s.head (priority a) (s.next a)
          tail := Function.update s.tail (priority a) none
          highestPriorSlot := searchSlot (Function.update s.head (priority a) (s.next a)) n
            (priority a) }, ?_, ?_⟩
        · simp only [SchedulePolicyPSlot.nextTask, h.slots, hhighest, if_pos hlt, hhead, deref_some,
            ok_bind, Function.update_self, if_pos hnext]
          rfl
        · refine ⟨fun i => (h.removed i).1, ?_, ?_, h.slots, h.descending.tail⟩
          · intro i
            show Function.update s.tail (priority a) none i = _
            by_cases hi : i = priority a
            · subst hi
              have hchain := (h.removed (priority a)).1
              rw [Function.update_self, hnext] at hchain
              rw [Function.update_self]
              show none = (q.filter _).getLast?
              rw [hchain.eq_nil]
              rfl
            · rw [Function.update_of_ne hi]
              exact (h.removed i).2 (Or.inl hi)
          · apply searchSlot_eq
            · intro i
              rw [Chain.head (h.removed i).1, List.head?_eq_none_iff, List.filter_eq_nil_iff]
              simp
            · exact h.descending.tail
            · exact fun t ht => h.descending.le_head (List.mem_cons_of_mem a ht)
      · refine ⟨{ s with head := Function.update s.head (priority a) (s.next a) }, ?_, ?_⟩
        · simp only [SchedulePolicyPSlot.nextTask, h.slots, hhighest, if_pos hlt, hhead, deref_some,
            ok_bind, Function.update_self, if_neg hnext]
          rfl
        · exact ⟨fun i => (h.removed i).1, fun i => (h.removed i).2 (Or.inr hnext),
            hhighest.trans (h.highest_tail hnext).symm, h.slots, h.descending.tail⟩

private theorem implements (hn : 0 < n) (priority : τ → Nat) :
    Implements (policy priority) (slot priority n) (Slotted (slot priority n) n) where
  queue _ _ _ h htask := h.queue hn htask
  nextTask _ _ h := h.nextTask (slot_lt hn)

end SchedulePolicyPSlot

namespace RunQueue

variable {w : RunQueue τ (SchedulePolicyPSlot τ)} {n : Nat}
  {l : List (PolicyCall τ × PolicyAnswer τ)}

/-- Every run with `n` slots is one of a single list with the priorities limited to `n - 1`. Where all
tasks have the same priority, it is also one of that list without the limit and of a first in, first
out queue. Every further call returns. -/
theorem run_agrees (hn : 0 < n) (priority : τ → Nat)
    (h : Run (Step (SchedulePolicyPSlot.policy priority)) (start (SchedulePolicyPSlot.init n)) l w) :
    (∃ w', Run (Step (SchedulePolicyPriority.policy fun t => min (priority t) (n - 1)))
      (start SchedulePolicyPriority.init) l w' ∧ w'.tasks = w.tasks) ∧
    ((∀ t u, priority t = priority u) →
      (∃ w', Run (Step (SchedulePolicyPriority.policy priority))
        (start SchedulePolicyPriority.init) l w' ∧ w'.tasks = w.tasks) ∧
      ∃ w', Run (Step SchedulePolicyFifo.policy) (start SchedulePolicyFifo.init) l w' ∧
        w'.tasks = w.tasks) ∧
    ∀ c, w.Admits c → ∃ a w', Step (SchedulePolicyPSlot.policy priority) w (c, a) w' := by
  have hslots := SchedulePolicyPSlot.implements hn priority
  have hlimit : SchedulePolicyPSlot.slot priority n = fun t => min (priority t) (n - 1) :=
    funext (SchedulePolicyPSlot.slot_eq hn)
  have hlist := SchedulePolicyPriority.implements fun t => min (priority t) (n - 1)
  rw [hlimit] at hslots
  obtain ⟨w₁, q, hrun₁, hshows, _, htasks₁⟩ := run_simulates hslots hlist
    SchedulePolicyPSlot.slotted_init SchedulePolicyPriority.ordered_init h
  refine ⟨⟨w₁, hrun₁, htasks₁⟩, ?_, ?_⟩
  · intro hsame
    have hlimited : ∀ t u, min (priority t) (n - 1) = min (priority u) (n - 1) := by
      intro t u
      rw [hsame t u]
    obtain ⟨w₂, _, hrun₂, _, _, htasks₂⟩ := run_simulates hslots
      (SchedulePolicyFifo.implements hlimited) SchedulePolicyPSlot.slotted_init
      SchedulePolicyFifo.queued_init h
    obtain ⟨w₃, _, hrun₃, _, _, htasks₃⟩ := run_simulates (SchedulePolicyFifo.implements hsame)
      (SchedulePolicyPriority.implements priority) SchedulePolicyFifo.queued_init
      SchedulePolicyPriority.ordered_init hrun₂
    exact ⟨⟨w₃, hrun₃, htasks₃.trans htasks₂⟩, w₂, hrun₂, htasks₂⟩
  · intro c hc
    obtain ⟨w', hstep, _⟩ := hshows.step hslots hc
    exact ⟨_, w', hstep⟩

/-- With two slots the tasks 5 and 3 share the upper slot and keep their order. -/
theorem run_agrees_twoSlots : ∃ w', Run (Step (SchedulePolicyPriority.policy fun t => min t 1))
    (start SchedulePolicyPriority.init) [(.queue 3, .queued true), (.queue 0, .queued false),
      (.queue 5, .queued false), (.nextTask, .next (some 3)), (.nextTask, .next (some 5)),
      (.nextTask, .next (some 0)), (.nextTask, .next none)] w' ∧ w'.tasks = [] := by
  have h₀ : Run (Step (SchedulePolicyPSlot.policy id)) (start (.init 2)) [] (start (.init 2)) := .start
  have h₁ := h₀.next_call 8 (.queue 3) (by decide : 3 ∉ []) fun fuel => rfl
  have h₂ := h₁.next_call 8 (.queue 0) (by decide : 0 ∉ [3]) fun fuel => rfl
  have h₃ := h₂.next_call 8 (.queue 5) (by decide : 5 ∉ [0, 3]) fun fuel => rfl
  have h₄ := h₃.next_call 8 .nextTask trivial fun fuel => rfl
  have h₅ := h₄.next_call 8 .nextTask trivial fun fuel => rfl
  have h₆ := h₅.next_call 8 .nextTask trivial fun fuel => rfl
  have hrun := h₆.next_call 8 .nextTask trivial fun fuel => rfl
  obtain ⟨⟨w', hrun', htasks⟩, _, _⟩ := run_agrees (by decide) id hrun
  exact ⟨w', hrun', htasks⟩

end RunQueue

end TaskingFramework
