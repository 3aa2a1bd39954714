import TaskingFramework.Foundation.Outcome

/-!
# Code that ends

Code ends with every sufficiently large bound in the same way, with a value or in a fault of its own.
The rules follow the code; what is claimed is claimed of the value.
-/

universe u

namespace Foundation

variable {α β : Type u} {f f' : Nat → Outcome α} {g : Nat → α → Outcome β} {P Q : α → Prop}
  {R : β → Prop} {a : α} {c : Prop} [Decidable c]

def Ends (f : Nat → Outcome α) (Q : α → Prop) : Prop :=
  (∃ a, Returns f a ∧ Q a) ∨ ∃ e, e ≠ Fault.outOfFuel ∧ Fails f e

theorem Returns.ends (h : Returns f a) (ha : Q a) : Ends f Q := Or.inl ⟨a, h, ha⟩

theorem Fails.ends {e : Fault} (h : Fails f e) (he : e ≠ .outOfFuel) : Ends f Q := Or.inr ⟨e, he, h⟩

theorem Ends.returned (h : Ends f Q) (ha : Returns f a) : Q a := by
  rcases h with ⟨b, hb, hQ⟩ | ⟨e, _, he⟩
  · obtain rfl := ha.unique hb
    exact hQ
  · exact absurd ha he.not_returns

theorem Ends.mono (h : Ends f P) (hPQ : ∀ a, P a → Q a) : Ends f Q := by
  rcases h with ⟨a, ha, hP⟩ | hfails
  · exact Or.inl ⟨a, ha, hPQ a hP⟩
  · exact Or.inr hfails

theorem Ends.bind (hf : Ends f P) (hg : ∀ a, P a → Ends (fun fuel => g fuel a) R) :
    Ends (fun fuel => f fuel >>= g fuel) R := by
  rcases hf with ⟨a, ha, hP⟩ | ⟨e, hne, he⟩
  · rcases hg a hP with ⟨b, hb, hR⟩ | ⟨e, hne, he⟩
    · exact Or.inl ⟨b, ha.bind hb, hR⟩
    · exact Or.inr ⟨e, hne, ha.bind_fails he⟩
  · exact Or.inr ⟨e, hne, he.bind⟩

theorem Ends.step (h : Ends f Q) (hff : ∀ fuel, f' (fuel + 1) = f fuel) : Ends f' Q := by
  rcases h with ⟨a, ha, hQ⟩ | ⟨e, hne, he⟩
  · exact Or.inl ⟨a, ha.step hff, hQ⟩
  · exact Or.inr ⟨e, hne, he.step hff⟩

theorem Ends.ite (ht : c → Ends f Q) (he : ¬ c → Ends f' Q) :
    Ends (fun fuel => if c then f fuel else f' fuel) Q := by
  by_cases hc : c
  · simpa only [if_pos hc] using ht hc
  · simpa only [if_neg hc] using he hc

theorem ends_ok (ha : Q a) : Ends (fun _ => .ok a) Q := (returns_ok a).ends ha

theorem ends_error {e : Fault} (he : e ≠ .outOfFuel) : Ends (fun _ => (.error e : Outcome α)) Q :=
  (fails_error e).ends he

theorem ends_check (b : Bool) : Ends (fun _ => check b) fun _ => b = true := by
  cases b with
  | true => exact ends_ok rfl
  | false => exact ends_error (by decide)

theorem ends_deref (p : Option α) : Ends (fun _ => deref p) fun a => p = some a := by
  cases p with
  | none => exact ends_error (by decide)
  | some a => exact ends_ok rfl

end Foundation
