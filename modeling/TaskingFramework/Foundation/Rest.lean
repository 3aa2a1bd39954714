import TaskingFramework.Foundation.Runs
import Mathlib.Algebra.GroupWithZero.Nat
import Mathlib.Algebra.BigOperators.Group.Finset.Basic
import Mathlib.Algebra.Order.BigOperators.Group.Finset

/-!
# Systems that come to rest

A system is at rest when none of its steps is possible. A system whose steps lower a weight runs for
a bounded number of steps, and every run of it can be continued until it is at rest.
-/

namespace Foundation

variable {σ ι : Type*} {step : σ → ι → σ → Prop} {s t : σ} {l : List ι}

/-- No step is possible. -/
def AtRest (step : σ → ι → σ → Prop) (s : σ) : Prop := ∀ i t, ¬ step s i t

/-- The steps lower the weight as long as the invariant holds. -/
structure Lowers (step : σ → ι → σ → Prop) (I : σ → Prop) (weight : σ → ℕ) : Prop where
  keeps : ∀ {a i b}, I a → step a i b → I b
  lowers : ∀ {a i b}, I a → step a i b → weight b < weight a

variable {I : σ → Prop} {weight : σ → ℕ}

/-- A run is not longer than the weight that it takes off. -/
theorem Lowers.length_add_le (hl : Lowers step I weight) (hs : I s) (h : Run step s l t) :
    l.length + weight t ≤ weight s := by
  have hrun : I t ∧ l.length + weight t ≤ weight s := by
    induction h with
    | start => exact ⟨hs, by simp⟩
    | next _ hi ih =>
        have hlower := hl.lowers ih.1 hi
        refine ⟨hl.keeps ih.1 hi, ?_⟩
        rw [List.length_append, List.length_singleton]
        omega
  exact hrun.2

/-- Every state is led to rest by some run. -/
theorem Lowers.exists_atRest (hl : Lowers step I weight) (hs : I s) :
    ∃ l t, Run step s l t ∧ AtRest step t := by
  induction hw : weight s using Nat.strong_induction_on generalizing s with
  | _ w ih =>
    by_cases hrest : AtRest step s
    · exact ⟨[], s, .start, hrest⟩
    · simp only [AtRest, not_forall, not_not] at hrest
      rcases hrest with ⟨i, u, hstep⟩
      rcases ih (weight u) (hw ▸ hl.lowers hs hstep) (hl.keeps hs hstep) rfl with ⟨l, t, hrun, ht⟩
      exact ⟨[i] ++ l, t, Run.append (Run.start.next hstep) hrun, ht⟩

section Weights

variable {α β : Type*}

theorem sum_map_set {w : α → ℕ} {l : List α} {i : ℕ} {x y : α} (hx : l[i]? = some x) :
    ((l.set i y).map w).sum + w x = (l.map w).sum + w y := by
  induction l generalizing i with
  | nil => simp at hx
  | cons z l ih =>
      cases i with
      | zero =>
          obtain rfl : z = x := by simpa using hx
          simp only [List.set_cons_zero, List.map_cons, List.sum_cons]
          omega
      | succ i =>
          have hrest := ih (i := i) (by simpa using hx)
          simp only [List.set_cons_succ, List.map_cons, List.sum_cons]
          omega

variable [Fintype α] [DecidableEq α]

theorem sum_update (w : α → β → ℕ) (f : α → β) (i : α) (b : β) :
    ∑ x, w x (Function.update f i b x) + w i (f i) = ∑ x, w x (f x) + w i b := by
  have hsplit : ∀ g : α → β, ∑ x, w x (g x) = w i (g i) + ∑ x ∈ Finset.univ.erase i, w x (g x) :=
    fun g => (Finset.add_sum_erase _ (fun x => w x (g x)) (Finset.mem_univ i)).symm
  have hrest : ∑ x ∈ Finset.univ.erase i, w x (Function.update f i b x) =
      ∑ x ∈ Finset.univ.erase i, w x (f x) := by
    refine Finset.sum_congr rfl fun x hx => ?_
    rw [Function.update_of_ne (Finset.ne_of_mem_erase hx)]
  rw [hsplit, hsplit f, hrest, Function.update_self]
  omega

end Weights

end Foundation
