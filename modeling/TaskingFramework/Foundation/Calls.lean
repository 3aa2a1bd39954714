import TaskingFramework.Foundation.Outcome
import TaskingFramework.Foundation.Runs

/-!
# Calls of an object

An object is driven by calls: a call takes the state to the next one and answers. Runs pass the legal
calls that return, labelled by the call and its answer.
-/

namespace Foundation

variable {σ ι α : Type} {legal : σ → ι → Prop} {call : Nat → σ → ι → Outcome (σ × α)}
  {s t t₁ t₂ : σ} {i : ι} {a a₁ a₂ : α} {l : List (ι × α)}

def Calls (legal : σ → ι → Prop) (call : Nat → σ → ι → Outcome (σ × α)) (s : σ) (i : ι × α)
    (t : σ) : Prop :=
  legal s i.1 ∧ Returns (fun fuel => call fuel s i.1) (t, i.2)

theorem Calls.unique (h₁ : Calls legal call s (i, a₁) t₁) (h₂ : Calls legal call s (i, a₂) t₂) :
    a₁ = a₂ ∧ t₁ = t₂ := by
  obtain ⟨ht, ha⟩ := Prod.mk.inj (h₁.2.unique h₂.2)
  exact ⟨ha, ht⟩

/-- What every legal call reaches and keeps holds at the end of every run. -/
theorem run_calls_invariant {I : σ → Prop}
    (hcall : ∀ s i, I s → legal s i → ∃ a t, Calls legal call s (i, a) t ∧ I t) (hs : I s)
    (h : Run (Calls legal call) s l t) : I t := by
  apply h.invariant hs
  intro u ⟨i, b⟩ v hu hstep
  obtain ⟨a, w, hw, hIw⟩ := hcall u i hu hstep.1
  obtain ⟨_, rfl⟩ := Calls.unique hstep hw
  exact hIw

/-- The state behind a call, or the one in front of it where the call ends in a fault. -/
def reached (s : σ) : Outcome (σ × α) → σ
  | .ok (t, _) => t
  | .error _ => s

theorem calls_reached (bound : Nat) (hlegal : legal s i)
    (h : ∀ fuel, call (fuel + bound) s i = .ok (reached s (call bound s i), a)) :
    Calls legal call s (i, a) (reached s (call bound s i)) :=
  ⟨hlegal, returns_of_add bound h⟩

/-- A run goes on with a legal call that returns within a bound. -/
theorem Run.next_call (h : Run (Calls legal call) s l t) (bound : Nat) (i : ι) {a : α}
    (hlegal : legal t i)
    (hret : ∀ fuel, call (fuel + bound) t i = .ok (reached t (call bound t i), a)) :
    Run (Calls legal call) s (l ++ [(i, a)]) (reached t (call bound t i)) :=
  h.next (calls_reached bound hlegal hret)

end Foundation
