import TaskingFramework.Foundation.Runs

/-!
# Simulation by runs

The states of an upper level are related to states of a labelled system. An upper state leads to
another one if every state related to the first has a run to a state related to the second; what the
labels of the run show is observed.
-/

namespace Foundation

variable {α β σ ι : Type*} {step : σ → ι → σ → Prop} {R : α → σ → Prop} {observe : ι → Option β}

/-- The system comes from the states that show `a` to one that shows `b`, and is observed to do `l`
on the way. -/
def Leads (step : σ → ι → σ → Prop) (observe : ι → Option β) (R : α → σ → Prop) (a : α) (l : List β)
    (b : α) : Prop :=
  ∀ s, R a s → ∃ labels t, Run step s labels t ∧ labels.filterMap observe = l ∧ R b t

variable {a b c : α} {l m : List β}

theorem Leads.refl : Leads step observe R a [] a := fun s hs => ⟨[], s, .start, rfl, hs⟩

theorem Leads.trans (h : Leads step observe R a l b) (h' : Leads step observe R b m c) :
    Leads step observe R a (l ++ m) c := by
  intro s hs
  obtain ⟨labels, t, hrun, hl, ht⟩ := h s hs
  obtain ⟨labels', u, hrun', hm, hu⟩ := h' t ht
  exact ⟨labels ++ labels', u, hrun.append hrun', by rw [List.filterMap_append, hl, hm], hu⟩

theorem Leads.silent (h : Leads step observe R a [] b) (h' : Leads step observe R b l c) :
    Leads step observe R a l c := h.trans h'

theorem Leads.silently (h : Leads step observe R a l b) (h' : Leads step observe R b [] c) :
    Leads step observe R a l c := by
  rw [← List.append_nil l]
  exact h.trans h'

theorem leads_step {i : ι} (hi : (observe i).toList = l) (h : ∀ s, R a s → ∃ t, step s i t ∧ R b t) :
    Leads step observe R a l b := by
  intro s hs
  obtain ⟨t, hstep, ht⟩ := h s hs
  refine ⟨[i], t, Run.start.next hstep, ?_, ht⟩
  rw [← hi]
  cases hi' : observe i with
  | none => exact List.filterMap_cons_none hi'
  | some x => exact List.filterMap_cons_some hi'

end Foundation
