import Mathlib.Algebra.Group.Nat.Defs
import Mathlib.Tactic.Common

/-!
# Inputs

An `Input` counts the notifications of its channel. A synchronous input hands `activationThreshold`
of them to each task run and keeps the rest as missed notifications. The counters are
`unsigned int`; the links of an input to its channel and its task are not needed here.
-/

namespace TaskingFramework

structure Input where
  final : Bool
  synchron : Bool
  notifications : Nat
  missedNotifications : Nat
  activationThreshold : Nat
  deriving DecidableEq, Repr

namespace Input

/-- Threshold of an input that has not been configured. -/
def uninitialized : Nat := 2 ^ 32 - 1

def init : Input := ⟨false, false, 0, 0, uninitialized⟩

def configure (x : Input) (activations : Nat) (final : Bool) : Input :=
  { x with
    activationThreshold := activations
    final := final
    synchron := decide (0 < activations) }

def isActivated (x : Input) : Bool :=
  if x.final && x.activationThreshold == 0 then decide (0 < x.notifications)
  else decide (x.activationThreshold ≤ x.notifications)

def isOptional (x : Input) : Bool := x.activationThreshold == 0

def isFinal (x : Input) : Bool := x.final

/-- The counting section of `notifyInput`. The answer tells whether the calling thread goes on to
ask `isActivated`. -/
def notify (x : Input) : Input × Bool :=
  if x.synchron && x.isActivated then
    ({ x with missedNotifications := (x.missedNotifications + 1) % 2 ^ 32 }, false)
  else
    ({ x with notifications := (x.notifications + 1) % 2 ^ 32 }, true)

/-- The counting section of `reset`. The answer tells whether `activate` is called behind it. -/
def reset (x : Input) : Input × Bool :=
  if x.synchron then
    if x.activationThreshold ≤ x.missedNotifications then
      ({ x with
        missedNotifications := x.missedNotifications - x.activationThreshold
        notifications := x.activationThreshold }, true)
    else
      ({ x with notifications := x.missedNotifications, missedNotifications := 0 }, false)
  else
    ({ x with notifications := 0 }, false)

def setSynchron (x : Input) (syncState : Bool) : Input :=
  if syncState && decide (0 < x.activationThreshold) then
    if x.activationThreshold < x.notifications then
      { x with
        synchron := true
        missedNotifications := x.notifications - x.activationThreshold
        notifications := x.activationThreshold }
    else { x with synchron := true }
  else
    { x with
      synchron := false
      notifications := (x.notifications + x.missedNotifications) % 2 ^ 32
      missedNotifications := 0 }

/-- A synchronous input with threshold `k` that holds `m` notifications in its two counters. -/
def synchronous (k m : Nat) : Input where
  final := false
  synchron := true
  notifications := min m k
  missedNotifications := m - k
  activationThreshold := k

theorem configure_init {k : Nat} (hk : 0 < k) : init.configure k false = synchronous k 0 := by
  simp [init, configure, synchronous, hk]

section Synchronous

variable {k m : Nat}

theorem isOptional_synchronous (hk : 0 < k) : (synchronous k m).isOptional = false := by
  simp only [isOptional, synchronous, beq_eq_false_iff_ne]
  omega

@[simp] theorem isActivated_synchronous : (synchronous k m).isActivated = decide (k ≤ m) := by
  have h : k ≤ min m k ↔ k ≤ m := by omega
  simp [isActivated, synchronous, h]

theorem notifications_add_missed :
    (synchronous k m).notifications + (synchronous k m).missedNotifications = m := by
  simp only [synchronous]
  omega

@[simp] theorem synchron_synchronous : (synchronous k m).synchron = true := rfl

theorem notify_synchronous (hm : m + 1 < 2 ^ 32) :
    (synchronous k m).notify = (synchronous k (m + 1), decide (m < k)) := by
  rw [notify, isActivated_synchronous, synchron_synchronous, Bool.true_and]
  by_cases h : k ≤ m
  · have hmiss : (m - k + 1) % 2 ^ 32 = m + 1 - k := by
      rw [Nat.mod_eq_of_lt] <;> omega
    have hmin : min m k = min (m + 1) k := by omega
    have hlt : decide (m < k) = false := decide_eq_false (by omega)
    rw [decide_eq_true h, if_pos rfl, hlt]
    simp only [synchronous, hmiss, hmin]
  · have hcount : (min m k + 1) % 2 ^ 32 = min (m + 1) k := by
      rw [Nat.mod_eq_of_lt] <;> omega
    have hmiss : m - k = m + 1 - k := by omega
    have hlt : decide (m < k) = true := decide_eq_true (by omega)
    rw [decide_eq_false h, if_neg Bool.false_ne_true, hlt]
    simp only [synchronous, hcount, hmiss]

/-- Without a bound on the notifications: the counter of the missed ones may have wrapped around `c`
times. -/
theorem notify_wraps (hk : k < 2 ^ 32) :
    ∃ m' c, (synchronous k m).notify = (synchronous k m', decide (m < k)) ∧
      m' + 2 ^ 32 * c = m + 1 ∧ (k ≤ m → k ≤ m') ∧
      ((synchronous k m).missedNotifications + 1 < 2 ^ 32 → c = 0) := by
  by_cases h : k ≤ m
  · refine ⟨k + (m - k + 1) % 2 ^ 32, (m - k + 1) / 2 ^ 32, ?_, ?_, fun _ => Nat.le_add_right _ _, ?_⟩
    · have hmiss : (m - k + 1) % 2 ^ 32 = k + (m - k + 1) % 2 ^ 32 - k := by omega
      have hmin : min m k = min (k + (m - k + 1) % 2 ^ 32) k := by omega
      have hlt : decide (m < k) = false := decide_eq_false (by omega)
      rw [notify, isActivated_synchronous, synchron_synchronous, Bool.true_and, decide_eq_true h,
        if_pos rfl, hlt]
      simp only [synchronous, ← hmiss, ← hmin]
    · have := Nat.mod_add_div (m - k + 1) (2 ^ 32)
      omega
    · intro hfits
      simp only [synchronous] at hfits
      exact Nat.div_eq_of_lt hfits
  · refine ⟨m + 1, 0, notify_synchronous (by omega), by omega, fun hle => absurd hle h, fun _ => rfl⟩

/-- A reset takes one bunch out; the input starts a new activation if a whole bunch is left. -/
theorem reset_synchronous :
    (synchronous k m).reset = (synchronous k (m - k), decide (k ≤ m - k)) := by
  rw [reset, synchron_synchronous, if_pos rfl]
  by_cases h : k ≤ m - k
  · have hmin : min (m - k) k = k := by omega
    rw [decide_eq_true h]
    simp only [synchronous, h, if_true, hmin]
  · have hmin : min (m - k) k = m - k := by omega
    have hmiss : m - k - k = 0 := by omega
    rw [decide_eq_false h]
    simp only [synchronous, h, if_false, hmin, hmiss]

end Synchronous

end Input

end TaskingFramework
