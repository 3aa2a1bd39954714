import TaskingFramework.Foundation.Calls
import TaskingFramework.Foundation.PriorityQueue
import TaskingFramework.Policy.SchedulePolicy

/-!
# Run queues by priority

A policy that follows links answers the calls of a run queue. It keeps the run queue ordered by
priority when its state stands for the ordered list of tasks. Two such policies cannot be told apart by
their answers.
-/

namespace TaskingFramework

open Foundation

/-- The methods of a policy that follows links over its state `σ`. -/
structure LinkedPolicy (τ σ : Type) where
  queue : Nat → τ → σ → Outcome (σ × Bool)
  nextTask : σ → Outcome (σ × Option τ)

inductive PolicyAnswer (τ : Type) where
  | queued (isEmpty : Bool)
  | next (task : Option τ)
  deriving DecidableEq

/-- A policy and the tasks that were queued and not returned since then. -/
structure RunQueue (τ σ : Type) where
  policy : σ
  tasks : List τ

/-- The policy keeps its states, which stand for lists of tasks, ordered by priority. -/
structure Implements {τ σ : Type} (P : LinkedPolicy τ σ) (priority : τ → Nat)
    (R : σ → List τ → Prop) : Prop where
  queue : ∀ s q task, R s q → task ∉ q →
    ∃ t, Returns (P.queue · task s) (t, q.isEmpty) ∧ R t (enter priority task q)
  nextTask : ∀ s q, R s q → ∃ t, P.nextTask s = .ok (t, q.head?) ∧ R t q.tail

namespace RunQueue

variable {τ σ σ' : Type} [DecidableEq τ]

def start (s : σ) : RunQueue τ σ := ⟨s, []⟩

/-- A task is queued only while it is not in the run queue. -/
def Admits (w : RunQueue τ σ) : PolicyCall τ → Prop
  | .queue task => task ∉ w.tasks
  | .nextTask => True

def call (P : LinkedPolicy τ σ) (fuel : Nat) (w : RunQueue τ σ) :
    PolicyCall τ → Outcome (RunQueue τ σ × PolicyAnswer τ)
  | .queue task => do
      let (s, isEmpty) ← P.queue fuel task w.policy
      return (⟨s, task :: w.tasks⟩, .queued isEmpty)
  | .nextTask => do
      let (s, next) ← P.nextTask w.policy
      return (⟨s, next.elim w.tasks w.tasks.erase⟩, .next next)

/-- The runs of a policy by calls and answers. -/
abbrev Step (P : LinkedPolicy τ σ) :
    RunQueue τ σ → PolicyCall τ × PolicyAnswer τ → RunQueue τ σ → Prop :=
  Calls Admits (call P)

structure Shows (R : σ → List τ → Prop) (w : RunQueue τ σ) (q : List τ) : Prop where
  policy : R w.policy q
  tasks : w.tasks.Perm q

variable {P : LinkedPolicy τ σ} {P' : LinkedPolicy τ σ'} {priority : τ → Nat}
  {R : σ → List τ → Prop} {R' : σ' → List τ → Prop} {w w₁ : RunQueue τ σ} {w' : RunQueue τ σ'}
  {q : List τ} {c : PolicyCall τ} {a : PolicyAnswer τ} {l : List (PolicyCall τ × PolicyAnswer τ)}
  {s : σ} {s' : σ'}

/-- The list that the tasks form behind a call. -/
def serve (priority : τ → Nat) (q : List τ) : PolicyCall τ → List τ
  | .queue task => enter priority task q
  | .nextTask => q.tail

/-- The answer that a list of tasks gives. -/
def answer (q : List τ) : PolicyCall τ → PolicyAnswer τ
  | .queue _ => .queued q.isEmpty
  | .nextTask => .next q.head?

/-- The tasks behind a call with its answer. -/
def passed (tasks : List τ) : PolicyCall τ → PolicyAnswer τ → List τ
  | .queue task, _ => task :: tasks
  | .nextTask, .next next => next.elim tasks tasks.erase
  | .nextTask, .queued _ => tasks

theorem Shows.step (h : Implements P priority R) (hw : Shows R w q) (hc : w.Admits c) :
    ∃ w₁, Step P w (c, answer q c) w₁ ∧ Shows R w₁ (serve priority q c) ∧
      w₁.tasks = passed w.tasks c (answer q c) := by
  cases c with
  | queue task =>
      have htask : task ∉ q := fun hmem => hc (hw.tasks.mem_iff.mpr hmem)
      obtain ⟨t, hret, ht⟩ := h.queue _ _ task hw.policy htask
      refine ⟨⟨t, task :: w.tasks⟩, ⟨hc, hret.bind (returns_ok _)⟩, ⟨ht, ?_⟩, rfl⟩
      exact (hw.tasks.cons task).trans enter_perm.symm
  | nextTask =>
      obtain ⟨t, hret, ht⟩ := h.nextTask _ _ hw.policy
      refine ⟨⟨t, q.head?.elim w.tasks w.tasks.erase⟩, ⟨trivial, ?_⟩, ⟨ht, ?_⟩, rfl⟩
      · simp only [call, hret]
        exact returns_ok _
      · have htasks := hw.tasks
        cases q with
        | nil => exact htasks
        | cons a q => simpa [serve] using htasks.erase a

private theorem Shows.simulates (h : Implements P priority R) (h' : Implements P' priority R')
    (hw : Shows R w q) (hw' : Shows R' w' q) (htasks : w'.tasks = w.tasks)
    (hstep : Step P w (c, a) w₁) :
    ∃ w₁' q', Step P' w' (c, a) w₁' ∧ Shows R w₁ q' ∧ Shows R' w₁' q' ∧ w₁'.tasks = w₁.tasks := by
  have hc : w.Admits c := hstep.1
  obtain ⟨v, hv, hshows, hpassed⟩ := hw.step h hc
  obtain ⟨rfl, rfl⟩ := Calls.unique hstep hv
  have hc' : w'.Admits c := by
    cases c with
    | queue task => exact fun hmem => hc (htasks ▸ hmem)
    | nextTask => trivial
  obtain ⟨v', hv', hshows', hpassed'⟩ := hw'.step h' hc'
  refine ⟨v', _, hv', hshows, hshows', ?_⟩
  rw [hpassed', hpassed, htasks]

/-- Every run of a policy is one of each other policy with the same priorities. -/
theorem run_simulates (h : Implements P priority R) (h' : Implements P' priority R') (hs : R s [])
    (hs' : R' s' []) (hrun : Run (Step P) (start s) l w) :
    ∃ w' q, Run (Step P') (start s') l w' ∧ Shows R w q ∧ Shows R' w' q ∧ w'.tasks = w.tasks := by
  induction hrun with
  | start => exact ⟨start s', [], .start, ⟨hs, .refl _⟩, ⟨hs', .refl _⟩, rfl⟩
  | next _ hstep ih =>
      obtain ⟨w', q, hrun', hshows, hshows', htasks⟩ := ih
      obtain ⟨w₁', q', hstep', hnext⟩ := hshows.simulates h h' hshows' htasks hstep
      exact ⟨w₁', q', hrun'.next hstep', hnext⟩

end RunQueue

end TaskingFramework
