import TaskingFramework.Task.Input
import Mathlib.Data.List.Basic
import Mathlib.Logic.Function.Basic

/-!
# Input arrays

`isActivated` decides whether a task is started: by its inputs, or by an alternative condition on
them.
-/

namespace TaskingFramework

structure InputArray where
  inputs : List Input
  condition : Option (List Input → Bool)

namespace InputArray

/-- The first loop of `isActivated` from index `i` on: where it finds an input that keeps the task
from being activated. -/
def lastChecked : List Input → Nat → Option Nat
  | [], _ => none
  | x :: xs, i =>
      if x.isActivated then
        if x.isFinal then none else lastChecked xs (i + 1)
      else if !x.isFinal && !x.isOptional then some i
      else lastChecked xs (i + 1)

def isActivated (a : InputArray) : Bool :=
  let first : Bool × Nat :=
    match a.condition with
    | none =>
        match lastChecked a.inputs 0 with
        | none => (true, a.inputs.length % 2 ^ 32)
        | some i => (false, i)
    | some condition =>
        if condition a.inputs then (true, a.inputs.length % 2 ^ 32) else (false, 0)
  -- the remaining inputs are only checked for final ones
  first.1 || (a.inputs.drop ((first.2 + 1) % 2 ^ 32)).any fun x => x.isActivated && x.isFinal

def set (a : InputArray) (i : Nat) (x : Input) : InputArray :=
  { a with inputs := a.inputs.set i x }

private theorem lastChecked_none {l : List Input} {i : Nat} (h : lastChecked l i = none) :
    (∃ x ∈ l, x.isActivated = true ∧ x.isFinal = true) ∨
      ∀ x ∈ l, x.isFinal = false → x.isOptional = false → x.isActivated = true := by
  induction l generalizing i with
  | nil => exact Or.inr fun x hx => absurd hx List.not_mem_nil
  | cons x l ih =>
      unfold lastChecked at h
      have hrest : lastChecked l (i + 1) = none → (x.isFinal = false → x.isOptional = false →
          x.isActivated = true) → (∃ y ∈ x :: l, y.isActivated = true ∧ y.isFinal = true) ∨
            ∀ y ∈ x :: l, y.isFinal = false → y.isOptional = false → y.isActivated = true := by
        intro hl hx
        rcases ih hl with ⟨y, hy, hfinal⟩ | hall
        · exact Or.inl ⟨y, List.mem_cons_of_mem x hy, hfinal⟩
        · refine Or.inr fun y hy => ?_
          rcases List.mem_cons.mp hy with rfl | hy
          · exact hx
          · exact hall y hy
      split at h
      · rename_i hactivated
        split at h
        · rename_i hfinal
          exact Or.inl ⟨x, List.mem_cons_self, hactivated, hfinal⟩
        · exact hrest h fun _ _ => hactivated
      · split at h
        · exact absurd h (by simp)
        · rename_i hnot
          refine hrest h fun hfinal hoptional => ?_
          exact absurd (by simp [hfinal, hoptional]) hnot

private theorem lastChecked_some {l : List Input} {i j : Nat} (h : lastChecked l i = some j) :
    ∃ k x m, l = k ++ x :: m ∧ j = i + k.length ∧ x.isActivated = false ∧ x.isFinal = false ∧
      x.isOptional = false ∧ ∀ y ∈ k, ¬ (y.isActivated = true ∧ y.isFinal = true) := by
  induction l generalizing i with
  | nil => exact absurd h (by simp [lastChecked])
  | cons x l ih =>
      unfold lastChecked at h
      have hrest : lastChecked l (i + 1) = some j → ¬ (x.isActivated = true ∧ x.isFinal = true) →
          ∃ k y m, x :: l = k ++ y :: m ∧ j = i + k.length ∧ y.isActivated = false ∧
            y.isFinal = false ∧ y.isOptional = false ∧
            ∀ z ∈ k, ¬ (z.isActivated = true ∧ z.isFinal = true) := by
        intro hl hx
        obtain ⟨k, y, m, rfl, hj, hactivated, hfinal, hoptional, hk⟩ := ih hl
        refine ⟨x :: k, y, m, rfl, ?_, hactivated, hfinal, hoptional, ?_⟩
        · rw [hj, List.length_cons]
          omega
        · intro z hz
          rcases List.mem_cons.mp hz with rfl | hz
          · exact hx
          · exact hk z hz
      split at h
      · split at h
        · exact absurd h (by simp)
        · rename_i hfinal
          exact hrest h fun hboth => hfinal hboth.2
      · rename_i hactivated
        split at h
        · rename_i hmissing
          rw [Bool.and_eq_true, Bool.not_eq_true', Bool.not_eq_true'] at hmissing
          refine ⟨[], x, l, rfl, ?_, by simpa using hactivated, hmissing.1, hmissing.2, by simp⟩
          exact (Option.some.inj h).symm
        · exact hrest h fun hboth => hactivated hboth.1

/-- The task is activated by an activated final input, or as each input that is neither final nor
optional is activated. -/
theorem isActivated_iff {a : InputArray} (hc : a.condition = none) :
    a.isActivated = true ↔ (∃ x ∈ a.inputs, x.isActivated = true ∧ x.isFinal = true) ∨
      ∀ x ∈ a.inputs, x.isFinal = false → x.isOptional = false → x.isActivated = true := by
  cases hl : lastChecked a.inputs 0 with
  | none =>
      have htrue : a.isActivated = true := by simp [isActivated, hc, hl]
      exact ⟨fun _ => lastChecked_none hl, fun _ => htrue⟩
  | some j =>
      obtain ⟨k, x, m, hsplit, hj, hactivated, hfinal, hoptional, hk⟩ := lastChecked_some hl
      have hany : a.isActivated = (a.inputs.drop ((j + 1) % 2 ^ 32)).any
          fun x => x.isActivated && x.isFinal := by simp [isActivated, hc, hl]
      rw [hany, List.any_eq_true]
      have hle : (j + 1) % 2 ^ 32 ≤ k.length + 1 := by
        rw [hj, Nat.zero_add]
        exact Nat.mod_le _ _
      constructor
      · intro h
        obtain ⟨y, hy, hboth⟩ := h
        exact Or.inl ⟨y, List.mem_of_mem_drop hy, by simpa using hboth⟩
      · intro h
        rcases h with ⟨y, hy, hboth⟩ | hall
        · refine ⟨y, ?_, by simpa using hboth⟩
          have hbehind : y ∈ m := by
            rw [hsplit, List.mem_append, List.mem_cons] at hy
            rcases hy with hy | rfl | hy
            · exact absurd hboth (hk y hy)
            · rw [hactivated] at hboth
              exact absurd hboth.1 (by simp)
            · exact hy
          have hdrop : m = (a.inputs.drop ((j + 1) % 2 ^ 32)).drop
              (k.length + 1 - (j + 1) % 2 ^ 32) := by
            rw [List.drop_drop, Nat.add_sub_cancel' hle, hsplit]
            simp
          rw [hdrop] at hbehind
          exact List.mem_of_mem_drop hbehind
        · have hx : x ∈ a.inputs := by
            rw [hsplit]
            exact List.mem_append_right _ List.mem_cons_self
          rw [hall x hx hfinal hoptional] at hactivated
          exact absurd hactivated (by simp)

private theorem isActivated_eq_true {a : InputArray} (hc : a.condition = none)
    (h : ∀ x ∈ a.inputs, x.isFinal = false ∧ x.isOptional = false) :
    a.isActivated = true ↔ ∀ x ∈ a.inputs, x.isActivated = true := by
  rw [isActivated_iff hc]
  constructor
  · intro hactivated x hx
    rcases hactivated with ⟨y, hy, _, hfinal⟩ | hall
    · rw [(h y hy).1] at hfinal
      exact absurd hfinal (by simp)
    · exact hall x hx (h x hx).1 (h x hx).2
  · exact fun hall => Or.inr fun x hx _ _ => hall x hx

/-- With an alternative condition the final inputs behind the first one activate the task, too. -/
theorem isActivated_condition {a : InputArray} {condition : List Input → Bool}
    (hc : a.condition = some condition) :
    a.isActivated = true ↔ condition a.inputs = true ∨
      ∃ x ∈ a.inputs.drop 1, x.isActivated = true ∧ x.isFinal = true := by
  cases hcondition : condition a.inputs with
  | true => simp [isActivated, hc, hcondition]
  | false => simp [isActivated, hc, hcondition]

/-- The alternative condition gets true by a notification only if this activates the input. -/
def ByActivation (condition : List Input → Bool) : Prop :=
  ∀ l i x, l[i]? = some x → (x.notify.1.isActivated = true → x.isActivated = true) →
    condition (l.set i x.notify.1) = true → condition l = true

/-- `n` synchronous inputs with thresholds `k` that hold `m` notifications. -/
def synchronous (n : Nat) (k m : Nat → Nat) : InputArray where
  inputs := (List.range n).map fun i => Input.synchronous (k i) (m i)
  condition := none

section Synchronous

variable {n : Nat} {k m : Nat → Nat}

theorem synchronous_getElem? (i : Nat) :
    (synchronous n k m).inputs[i]? =
      if i < n then some (Input.synchronous (k i) (m i)) else none := by
  by_cases h : i < n <;> simp [synchronous, h]

@[simp] theorem synchronous_length : (synchronous n k m).inputs.length = n := by
  simp [synchronous]

theorem synchronous_set (i x : Nat) :
    (synchronous n k m).set i (Input.synchronous (k i) x) =
      synchronous n k (Function.update m i x) := by
  have h : (synchronous n k m).inputs.set i (Input.synchronous (k i) x) =
      (synchronous n k (Function.update m i x)).inputs := by
    apply List.ext_getElem?
    intro j
    rw [List.getElem?_set, synchronous_getElem?, synchronous_getElem?, synchronous_length]
    by_cases hij : i = j
    · subst j
      simp
    · have hji : j ≠ i := fun he => hij he.symm
      simp [hij, hji]
  rw [InputArray.set, h]
  rfl

theorem synchronous_isActivated (hk : ∀ i < n, 0 < k i) :
    (synchronous n k m).isActivated = true ↔ ∀ i < n, k i ≤ m i := by
  rw [isActivated_eq_true rfl]
  · simp [synchronous]
  · intro x hx
    simp only [synchronous, List.mem_map, List.mem_range] at hx
    rcases hx with ⟨i, hi, rfl⟩
    exact ⟨rfl, Input.isOptional_synchronous (hk i hi)⟩

theorem synchronous_congr {m' : Nat → Nat} (h : ∀ i < n, m i = m' i) :
    synchronous n k m = synchronous n k m' := by
  have hl : ∀ i ∈ List.range n,
      Input.synchronous (k i) (m i) = Input.synchronous (k i) (m' i) := by
    intro i hi
    rw [h i (List.mem_range.mp hi)]
  rw [synchronous, synchronous, List.map_congr_left hl]

end Synchronous

end InputArray

end TaskingFramework
