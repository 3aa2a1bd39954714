import Mathlib.Logic.Relation
import Mathlib.Data.List.Induction

/-!
# Labelled runs

A system is a relation `step s i s'` between states, labelled by what happens in the step. A run
is a finite sequence of steps; invariants are carried along runs by induction.
-/

namespace Foundation

variable {σ ι : Type*}

/-- `Run step s l t`: the steps labelled `l`, in this order, lead from `s` to `t`. -/
inductive Run (step : σ → ι → σ → Prop) (s : σ) : List ι → σ → Prop where
  | start : Run step s [] s
  | next {l : List ι} {t : σ} {i : ι} {u : σ} :
      Run step s l t → step t i u → Run step s (l ++ [i]) u

variable {step : σ → ι → σ → Prop} {s t u : σ} {l m : List ι} {i : ι}

theorem run_nil : Run step s [] t ↔ s = t := by
  constructor
  · intro h
    generalize hl : ([] : List ι) = l at h
    cases h with
    | start => rfl
    | next _ _ => simp at hl
  · rintro rfl
    exact .start

theorem run_snoc : Run step s (l ++ [i]) u ↔ ∃ t, Run step s l t ∧ step t i u := by
  constructor
  · intro h
    generalize hl : l ++ [i] = k at h
    cases h with
    | start => simp at hl
    | next hr hs =>
        obtain ⟨rfl, rfl⟩ := List.append_singleton_inj.mp hl
        exact ⟨_, hr, hs⟩
  · rintro ⟨t, hr, hs⟩
    exact hr.next hs

/-- What holds at the start and is preserved by every step holds at the end of every run. -/
theorem Run.invariant {I : σ → Prop} (h : Run step s l t) (hs : I s)
    (hstep : ∀ a i b, I a → step a i b → I b) : I t := by
  induction h with
  | start => exact hs
  | next _ hi ih => exact hstep _ _ _ ih hi

/-- The same for an invariant that speaks of the labels passed so far. -/
theorem Run.invariant_history {I : List ι → σ → Prop} (h : Run step s l t) (hs : I [] s)
    (hstep : ∀ k a i b, I k a → step a i b → I (k ++ [i]) b) : I l t := by
  induction h with
  | start => exact hs
  | next _ hi ih => exact hstep _ _ _ _ ih hi

theorem Run.mono {step' : σ → ι → σ → Prop} (h : Run step s l t)
    (hstep : ∀ a i b, step a i b → step' a i b) : Run step' s l t := by
  induction h with
  | start => exact .start
  | next _ hi ih => exact ih.next (hstep _ _ _ hi)

theorem Run.append (h : Run step s l t) (h' : Run step t m u) : Run step s (l ++ m) u := by
  induction h' with
  | start => rwa [List.append_nil]
  | next _ hi ih =>
      rw [← List.append_assoc]
      exact ih.next hi

theorem Run.and {P : σ → ι → Prop} (h : Run step s l t) (hP : ∀ a, ∀ i ∈ l, P a i) :
    Run (fun a i b => step a i b ∧ P a i) s l t := by
  induction h with
  | start => exact .start
  | next _ hi ih =>
      have hbefore := ih fun a i hi => hP a i (List.mem_append_left _ hi)
      exact hbefore.next ⟨hi, hP _ _ (List.mem_append_right _ List.mem_cons_self)⟩

/-- A system in which a label determines the successor has one run for each label sequence. -/
theorem Run.unique (hdet : ∀ a i b c, step a i b → step a i c → b = c) (h : Run step s l t)
    (h' : Run step s l u) : t = u := by
  induction h generalizing u with
  | start => exact run_nil.mp h'
  | next _ hi ih =>
      obtain ⟨v, hv, hvi⟩ := run_snoc.mp h'
      obtain rfl := ih hv
      exact hdet _ _ _ _ hi hvi

/-- The runs of a partial transition function are its iterations over the labels. -/
theorem run_foldlM {f : σ → ι → Option σ} :
    Run (fun a i b => f a i = some b) s l t ↔ l.foldlM f s = some t := by
  induction l using List.reverseRecOn generalizing t with
  | nil => simp [run_nil]
  | append_singleton l i ih =>
      rw [run_snoc, List.foldlM_append]
      simp [ih, Option.bind_eq_some_iff]

theorem forall_split_cons {P : List ι → ι → Prop} :
    (∀ before x later, i :: l = before ++ x :: later → P before x) ↔
      P [] i ∧ ∀ before x later, l = before ++ x :: later → P (i :: before) x := by
  constructor
  · intro h
    exact ⟨h [] i l rfl, fun before x later he => h (i :: before) x later (by simp [he])⟩
  · rintro ⟨hfirst, hlater⟩ before x later he
    cases before with
    | nil =>
        obtain ⟨hx, _⟩ := List.cons_eq_cons.mp he
        exact hx ▸ hfirst
    | cons b before =>
        obtain ⟨hb, he⟩ := List.cons_eq_cons.mp he
        exact hb ▸ hlater before x later he

theorem forall_split_snoc {P : List ι → ι → Prop} :
    (∀ before x later, l ++ [i] = before ++ x :: later → P before x) ↔
      (∀ before x later, l = before ++ x :: later → P before x) ∧ P l i := by
  constructor
  · intro h
    exact ⟨fun before x later he => h before x (later ++ [i]) (by simp [he]), h l i [] rfl⟩
  · rintro ⟨hbefore, hlast⟩ before x later he
    induction later using List.reverseRecOn with
    | nil =>
        obtain ⟨rfl, rfl⟩ := List.append_singleton_inj.mp he
        exact hlast
    | append_singleton later y _ =>
        have he : l ++ [i] = (before ++ x :: later) ++ [y] := by simpa using he
        exact hbefore before x later (List.append_inj_left' he rfl)

/-- Every step of the run through `l` starts in a state where its label has the property. -/
def Along (step : σ → ι → σ → Prop) (s : σ) (P : σ → ι → Prop) (l : List ι) : Prop :=
  ∀ before i later, l = before ++ i :: later → ∀ t, Run step s before t → P t i

/-- Every state of the run through `l` has the property. -/
def Throughout (step : σ → ι → σ → Prop) (s : σ) (Q : σ → Prop) (l : List ι) : Prop :=
  ∀ before later, l = before ++ later → ∀ t, Run step s before t → Q t

theorem along_nil {P : σ → ι → Prop} : Along step s P [] := by
  intro before i later he
  simp at he

theorem along_snoc {P : σ → ι → Prop} :
    Along step s P (l ++ [i]) ↔ Along step s P l ∧ ∀ t, Run step s l t → P t i :=
  forall_split_snoc (P := fun before i => ∀ t, Run step s before t → P t i)

theorem throughout_nil {Q : σ → Prop} : Throughout step s Q [] ↔ Q s := by
  constructor
  · intro h
    exact h [] [] rfl s .start
  · intro h before later he t ht
    obtain ⟨rfl, _⟩ := List.append_eq_nil_iff.mp he.symm
    exact run_nil.mp ht ▸ h

theorem throughout_snoc {Q : σ → Prop} :
    Throughout step s Q (l ++ [i]) ↔
      Throughout step s Q l ∧ ∀ t, Run step s (l ++ [i]) t → Q t := by
  constructor
  · intro h
    exact ⟨fun before later he => h before (later ++ [i]) (by simp [he]),
      h (l ++ [i]) [] (by simp)⟩
  · rintro ⟨hbefore, hlast⟩ before later he t ht
    induction later using List.reverseRecOn with
    | nil =>
        rw [List.append_nil] at he
        exact hlast t (he ▸ ht)
    | append_singleton later y _ =>
        have he : l ++ [i] = (before ++ later) ++ [y] := by simpa using he
        exact hbefore before later (List.append_inj_left' he rfl) t ht

end Foundation
