import TaskingFramework.Foundation.Runs
import TaskingFramework.Task.Input

/-!
# Switching the synchronisation

An input holds its notifications in two counters. `setSynchron` distributes them anew, and an
asynchronous input has no missed notifications. Both fail behind a `configure` that changes the
threshold of an input with missed notifications.
-/

namespace TaskingFramework

open Foundation

inductive InputCall where
  | configure (activations : Nat) (final : Bool)
  | setSynchron (syncState : Bool)
  | notifyInput
  | reset
  deriving DecidableEq

namespace Input

def perform (x : Input) : InputCall → Input
  | .configure activations final => x.configure activations final
  | .setSynchron syncState => x.setSynchron syncState
  | .notifyInput => x.notify.1
  | .reset => x.reset.1

/-- All notifications that the input holds. -/
def held (x : Input) : Nat := x.notifications + x.missedNotifications

/-- The call does not make an input with missed notifications optional, and does not replace missed
notifications by those above the threshold. -/
def KeepsMissed (x : Input) : InputCall → Prop
  | .configure activations _ => activations = 0 → x.missedNotifications = 0
  | .setSynchron syncState =>
      syncState = true → 0 < x.activationThreshold → x.activationThreshold < x.notifications →
        x.missedNotifications = 0
  | .notifyInput | .reset => True

/-- An asynchronous input misses nothing, and no input holds more than its notifications. -/
structure Balanced (x : Input) (notified : Nat) : Prop where
  asynchronous : x.synchron = false → x.missedNotifications = 0
  held : x.held ≤ notified

variable {x : Input} {notified : Nat} {call : InputCall}

private theorem setSynchron_held (hx : x.held < 2 ^ 32) (syncState : Bool) :
    (x.setSynchron syncState).held = x.held ↔ x.KeepsMissed (.setSynchron syncState) := by
  unfold held at hx
  by_cases hsync : syncState = true ∧ 0 < x.activationThreshold
  · have hcond : (syncState && decide (0 < x.activationThreshold)) = true := by simpa using hsync
    by_cases habove : x.activationThreshold < x.notifications
    · have hkeeps : x.KeepsMissed (.setSynchron syncState) ↔ x.missedNotifications = 0 :=
        ⟨fun h => h hsync.1 hsync.2 habove, fun h _ _ _ => h⟩
      rw [hkeeps, setSynchron, if_pos hcond, if_pos habove]
      simp only [held]
      omega
    · simp [setSynchron, hcond, habove, held, KeepsMissed]
  · have hcond : (syncState && decide (0 < x.activationThreshold)) = false := by
      rw [Bool.eq_false_iff]
      simpa using hsync
    have hsum : (x.notifications + x.missedNotifications) % 2 ^ 32 =
        x.notifications + x.missedNotifications := Nat.mod_eq_of_lt hx
    simp only [setSynchron, hcond, Bool.false_eq_true, if_false, held, hsum, Nat.add_zero, true_iff]
    exact fun hb hpos => absurd ⟨hb, hpos⟩ hsync

private theorem setSynchron_asynchronous {syncState : Bool}
    (h : (x.setSynchron syncState).synchron = false) :
    (x.setSynchron syncState).missedNotifications = 0 := by
  unfold setSynchron at h ⊢
  split at h
  · split at h
    · simp at h
    · simp at h
  · rename_i hcond
    rw [if_neg hcond]

private theorem Balanced.configure (h : x.Balanced notified) {activations : Nat} (final : Bool)
    (hkeeps : activations = 0 → x.missedNotifications = 0) :
    (x.configure activations final).Balanced notified := by
  constructor
  · intro hasync
    apply hkeeps
    simpa [Input.configure] using hasync
  · exact h.held

private theorem Balanced.setSynchron (h : x.Balanced notified) (hx : notified < 2 ^ 32)
    {syncState : Bool} (hkeeps : x.KeepsMissed (.setSynchron syncState)) :
    (x.setSynchron syncState).Balanced notified := by
  constructor
  · exact setSynchron_asynchronous
  · rw [(setSynchron_held (Nat.lt_of_le_of_lt h.held hx) syncState).mpr hkeeps]
    exact h.held

private theorem Balanced.notify (h : x.Balanced notified) (hx : notified + 1 < 2 ^ 32) :
    x.notify.1.Balanced (notified + 1) := by
  have hheld : x.notifications + x.missedNotifications ≤ notified := h.held
  unfold Input.notify
  split
  · rename_i hsync
    rw [Bool.and_eq_true] at hsync
    constructor
    · intro hasync
      exact absurd (hsync.1.symm.trans hasync) (by simp)
    · have hmod : (x.missedNotifications + 1) % 2 ^ 32 = x.missedNotifications + 1 :=
        Nat.mod_eq_of_lt (by omega)
      simp only [Input.held, hmod]
      omega
  · constructor
    · exact h.asynchronous
    · have hmod : (x.notifications + 1) % 2 ^ 32 = x.notifications + 1 := Nat.mod_eq_of_lt (by omega)
      simp only [Input.held, hmod]
      omega

private theorem Balanced.reset (h : x.Balanced notified) : x.reset.1.Balanced notified := by
  have hheld : x.notifications + x.missedNotifications ≤ notified := h.held
  unfold Input.reset
  split
  · rename_i hsync
    split
    · constructor
      · intro hasync
        exact absurd (hsync.symm.trans hasync) (by simp)
      · simp only [Input.held]
        omega
    · constructor
      · exact fun _ => rfl
      · simp only [Input.held]
        omega
  · rename_i hsync
    have hmissed := h.asynchronous (by simpa using hsync)
    constructor
    · exact fun _ => hmissed
    · simp only [Input.held]
      omega

private theorem Balanced.perform (h : x.Balanced notified)
    (hx : notified + (if call = .notifyInput then 1 else 0) < 2 ^ 32) (hkeeps : x.KeepsMissed call) :
    (x.perform call).Balanced (notified + if call = .notifyInput then 1 else 0) := by
  cases call with
  | configure activations final => exact h.configure final hkeeps
  | setSynchron syncState => exact h.setSynchron hx hkeeps
  | notifyInput => exact h.notify hx
  | reset => exact h.reset

/-- In every run whose calls keep the missed notifications an asynchronous input has none, and the next
switch keeps the notifications exactly if it meets the condition, too. -/
theorem run_keepsMissed {l : List InputCall}
    (h : Run (fun (x : Input) call y => y = x.perform call ∧ x.KeepsMissed call) init l x)
    (hl : l.count .notifyInput < 2 ^ 32) :
    (x.synchron = false → x.missedNotifications = 0) ∧
      ∀ syncState, (x.setSynchron syncState).held = x.held ↔
          x.KeepsMissed (.setSynchron syncState) := by
  have hbalanced : x.Balanced (l.count .notifyInput) := by
    induction h with
    | start => exact ⟨fun _ => rfl, Nat.le_refl 0⟩
    | @next l x call y hrun hstep ih =>
        rw [List.count_append, List.count_singleton] at hl ⊢
        simp only [beq_iff_eq] at hl ⊢
        obtain ⟨rfl, hkeeps⟩ := hstep
        exact (ih (by omega)).perform hl hkeeps
  exact ⟨hbalanced.asynchronous, setSynchron_held (Nat.lt_of_le_of_lt hbalanced.held hl)⟩

/-- Three notifications of an input with threshold 1, and a switch to the asynchronous mode. -/
theorem run_keepsMissed_three : ∃ (l : List InputCall) (x : Input),
    Run (fun (x : Input) call y => y = x.perform call ∧ x.KeepsMissed call) init l x ∧
      x.synchron = false ∧ x.missedNotifications = 0 := by
  have hrun : Run (fun (x : Input) call y => y = x.perform call ∧ x.KeepsMissed call) init
      [.configure 1 false, .notifyInput, .notifyInput, .notifyInput, .setSynchron false] _ :=
    ((((Run.start.next ⟨rfl, fun h => absurd h (by decide)⟩).next ⟨rfl, trivial⟩).next
      ⟨rfl, trivial⟩).next ⟨rfl, trivial⟩).next ⟨rfl, fun h => absurd h (by decide)⟩
  exact ⟨_, _, hrun, rfl, (run_keepsMissed hrun (by decide)).1 rfl⟩

/-- Behind a lower threshold a switch forgets a notification; an input that gets optional keeps a missed
one. -/
theorem configure_breaks_counters :
    (∃ l : List InputCall, l.count .notifyInput = 4 ∧
      ((l.foldl perform init).setSynchron true).held = 3 ∧ (l.foldl perform init).held = 4) ∧
    ∃ l : List InputCall, l.count .notifyInput = 2 ∧ (l.foldl perform init).synchron = false ∧
      (l.foldl perform init).missedNotifications = 1 :=
  ⟨⟨[.configure 3 false, .notifyInput, .notifyInput, .notifyInput, .notifyInput, .configure 1 false],
      by decide⟩,
    [.configure 1 false, .notifyInput, .notifyInput, .configure 0 false], by decide⟩

end Input

end TaskingFramework
