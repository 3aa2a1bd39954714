import Mathlib.Data.List.Induction
import Mathlib.Order.Lattice
import Mathlib.Order.Nat

/-!
# Outcomes of imperative code

A run of a function ends with a value or in a fault. Loops count down a bound on their iterations,
and a function returns a value when every sufficiently large bound gives this value.
-/

universe u

namespace Foundation

inductive Fault where
  | nullPointer
  | assertion
  | outOfFuel
  deriving DecidableEq, Repr

abbrev Outcome (α : Type u) := Except Fault α

variable {α β : Type u}

/-- The object behind a pointer. -/
def deref : Option α → Outcome α
  | some a => .ok a
  | none => .error .nullPointer

def check (condition : Bool) : Outcome Unit :=
  if condition then .ok () else .error .assertion

@[simp] theorem deref_some (a : α) : deref (some a) = .ok a := rfl

@[simp] theorem check_true : check true = .ok () := rfl

@[simp] theorem ok_bind (a : α) (f : α → Outcome β) : (Except.ok a >>= f) = f a := rfl

@[simp] theorem error_bind (e : Fault) (f : α → Outcome β) :
    ((Except.error e : Outcome α) >>= f) = .error e := rfl

@[simp] theorem pure_eq_ok (a : α) : (pure a : Outcome α) = .ok a := rfl

theorem bind_eq_ok {x : Outcome α} {f : α → Outcome β} {b : β} :
    (x >>= f) = .ok b ↔ ∃ a, x = .ok a ∧ f a = .ok b := by
  cases x with
  | error e => simp
  | ok a => simp

theorem foldlM_range_succ {f : α → Nat → Outcome α} {a b : α} {m : Nat}
    (h : (List.range (m + 1)).foldlM f a = .ok b) :
    ∃ c, (List.range m).foldlM f a = .ok c ∧ f c m = .ok b := by
  rw [List.range_succ, List.foldlM_append] at h
  obtain ⟨c, hc, h⟩ := bind_eq_ok.mp h
  rw [List.foldlM_cons] at h
  obtain ⟨d, hd, h⟩ := bind_eq_ok.mp h
  obtain rfl := Except.ok.inj h
  exact ⟨c, hc, hd⟩

/-- What every iteration keeps is kept by a loop over a list. -/
theorem foldlM_invariant {f : β → α → Outcome β} {I : β → Prop} {l : List α} {b c : β}
    (h : l.foldlM f b = .ok c) (hb : I b) (hstep : ∀ a x c, x ∈ l → I a → f a x = .ok c → I c) :
    I c := by
  induction l generalizing b with
  | nil => exact Except.ok.inj h ▸ hb
  | cons x l ih =>
      rw [List.foldlM_cons] at h
      obtain ⟨a, ha, h⟩ := bind_eq_ok.mp h
      exact ih h (hstep b x a List.mem_cons_self hb ha)
        fun a y c hy => hstep a y c (List.mem_cons_of_mem x hy)

/-- With every sufficiently large bound the function ends with this value. -/
def Returns (f : Nat → Outcome α) (a : α) : Prop :=
  ∃ bound, ∀ fuel, bound ≤ fuel → f fuel = .ok a

theorem returns_ok (a : α) : Returns (fun _ => .ok a) a := ⟨0, fun _ _ => rfl⟩

theorem Returns.exists {f : Nat → Outcome α} {a : α} (h : Returns f a) : ∃ fuel, f fuel = .ok a := by
  obtain ⟨bound, hbound⟩ := h
  exact ⟨bound, hbound bound (le_refl bound)⟩

theorem returns_of_add {f : Nat → Outcome α} {a : α} (bound : Nat)
    (h : ∀ fuel, f (fuel + bound) = .ok a) : Returns f a := by
  refine ⟨bound, fun fuel hfuel => ?_⟩
  rw [← Nat.sub_add_cancel hfuel]
  exact h (fuel - bound)

theorem Returns.bind {f : Nat → Outcome α} {g : Nat → α → Outcome β} {a : α} {b : β}
    (hf : Returns f a) (hg : Returns (fun fuel => g fuel a) b) :
    Returns (fun fuel => f fuel >>= g fuel) b := by
  rcases hf with ⟨m, hm⟩
  rcases hg with ⟨n, hn⟩
  refine ⟨max m n, fun fuel hfuel => ?_⟩
  show (f fuel >>= g fuel) = .ok b
  rw [hm fuel (le_trans (le_max_left m n) hfuel), ok_bind]
  exact hn fuel (le_trans (le_max_right m n) hfuel)

theorem Returns.unique {f : Nat → Outcome α} {a b : α} (ha : Returns f a) (hb : Returns f b) :
    a = b := by
  rcases ha with ⟨m, hm⟩
  rcases hb with ⟨n, hn⟩
  have h := (hm (max m n) (le_max_left m n)).symm.trans (hn (max m n) (le_max_right m n))
  exact Except.ok.inj h

theorem Returns.congr {f g : Nat → Outcome α} {a : α} (h : Returns f a)
    (hfg : ∀ fuel, f fuel = g fuel) : Returns g a := by
  rcases h with ⟨m, hm⟩
  exact ⟨m, fun fuel hfuel => (hfg fuel).symm.trans (hm fuel hfuel)⟩

/-- A loop over a list returns as each iteration does, with what they reach for the elements passed
so far. -/
theorem foldlM_returns {f : Nat → β → α → Outcome β} {I : List α → β → Prop} {l : List α} {b : β}
    (hb : I [] b)
    (hstep : ∀ k a x, x ∈ l → I k a → ∃ c, Returns (fun fuel => f fuel a x) c ∧ I (k ++ [x]) c) :
    ∃ c, Returns (fun fuel => l.foldlM (f fuel) b) c ∧ I l c := by
  induction l using List.reverseRecOn with
  | nil => exact ⟨b, returns_ok b, hb⟩
  | append_singleton l x ih =>
      obtain ⟨a, ha, hIa⟩ := ih fun k a y hy => hstep k a y (List.mem_append_left _ hy)
      obtain ⟨c, hc, hIc⟩ := hstep l a x (List.mem_append_right _ List.mem_cons_self) hIa
      have hlast : Returns (fun fuel => [x].foldlM (f fuel) a) c :=
        (hc.bind (returns_ok c)).congr fun fuel => rfl
      exact ⟨c, (ha.bind hlast).congr fun fuel => List.foldlM_append.symm, hIc⟩

theorem Returns.step {f g : Nat → Outcome α} {a : α} (h : Returns f a)
    (hfg : ∀ fuel, g (fuel + 1) = f fuel) : Returns g a := by
  rcases h with ⟨m, hm⟩
  refine ⟨m + 1, fun fuel hfuel => ?_⟩
  obtain ⟨n, rfl⟩ : ∃ n, fuel = n + 1 := ⟨fuel - 1, by omega⟩
  rw [hfg n]
  exact hm n (by omega)

/-- With every sufficiently large bound the function ends in this fault. -/
def Fails (f : Nat → Outcome α) (e : Fault) : Prop :=
  ∃ bound, ∀ fuel, bound ≤ fuel → f fuel = .error e

theorem fails_error (e : Fault) : Fails (fun _ => (.error e : Outcome α)) e := ⟨0, fun _ _ => rfl⟩

theorem Fails.not_returns {f : Nat → Outcome α} {e : Fault} {a : α} (h : Fails f e) :
    ¬ Returns f a := by
  rintro ⟨n, hn⟩
  obtain ⟨m, hm⟩ := h
  have heq := (hm (max m n) (le_max_left m n)).symm.trans (hn (max m n) (le_max_right m n))
  simp at heq

theorem Fails.bind {f : Nat → Outcome α} {g : Nat → α → Outcome β} {e : Fault} (h : Fails f e) :
    Fails (fun fuel => f fuel >>= g fuel) e := by
  obtain ⟨m, hm⟩ := h
  refine ⟨m, fun fuel hfuel => ?_⟩
  show (f fuel >>= g fuel) = .error e
  rw [hm fuel hfuel, error_bind]

theorem Returns.bind_fails {f : Nat → Outcome α} {g : Nat → α → Outcome β} {a : α} {e : Fault}
    (hf : Returns f a) (hg : Fails (fun fuel => g fuel a) e) :
    Fails (fun fuel => f fuel >>= g fuel) e := by
  obtain ⟨m, hm⟩ := hf
  obtain ⟨n, hn⟩ := hg
  refine ⟨max m n, fun fuel hfuel => ?_⟩
  show (f fuel >>= g fuel) = .error e
  rw [hm fuel (le_trans (le_max_left m n) hfuel), ok_bind]
  exact hn fuel (le_trans (le_max_right m n) hfuel)

theorem Fails.step {f g : Nat → Outcome α} {e : Fault} (h : Fails f e)
    (hfg : ∀ fuel, g (fuel + 1) = f fuel) : Fails g e := by
  obtain ⟨m, hm⟩ := h
  refine ⟨m + 1, fun fuel hfuel => ?_⟩
  obtain ⟨n, rfl⟩ : ∃ n, fuel = n + 1 := ⟨fuel - 1, by omega⟩
  rw [hfg n]
  exact hm n (by omega)

/-- The rest of a function behind a part that returns. -/
theorem Returns.rest {f : Nat → Outcome α} {g : Nat → α → Outcome β} {a : α} {b : β}
    (h : Returns (fun fuel => f fuel >>= g fuel) b) (hf : Returns f a) :
    Returns (fun fuel => g fuel a) b := by
  obtain ⟨m, hm⟩ := h
  obtain ⟨n, hn⟩ := hf
  refine ⟨max m n, fun fuel hfuel => ?_⟩
  have hret : (f fuel >>= g fuel) = .ok b := hm fuel (le_trans (le_max_left m n) hfuel)
  rw [hn fuel (le_trans (le_max_right m n) hfuel), ok_bind] at hret
  exact hret

/-- A value does not change with a larger bound. -/
def Steady (f : Nat → Outcome α) : Prop := ∀ n a, f n = .ok a → f (n + 1) = .ok a

theorem Steady.returns {f : Nat → Outcome α} {n : Nat} {a : α} (h : Steady f) (ha : f n = .ok a) :
    Returns f a := by
  refine ⟨n, fun fuel hfuel => ?_⟩
  induction fuel, hfuel using Nat.le_induction with
  | base => exact ha
  | succ fuel _ ih => exact h fuel a ih

theorem Steady.const (x : Outcome α) : Steady fun _ => x := fun _ _ h => h

theorem Steady.bind {f : Nat → Outcome α} {g : Nat → α → Outcome β} (hf : Steady f)
    (hg : ∀ a, Steady fun fuel => g fuel a) : Steady fun fuel => f fuel >>= g fuel := by
  intro n b h
  obtain ⟨a, ha, hb⟩ := bind_eq_ok.mp h
  exact bind_eq_ok.mpr ⟨a, hf n a ha, hg a n b hb⟩

theorem Steady.ite {f g : Nat → Outcome α} {c : Prop} [Decidable c] (hf : Steady f)
    (hg : Steady g) : Steady fun fuel => if c then f fuel else g fuel := by
  by_cases hc : c
  · simpa only [if_pos hc] using hf
  · simpa only [if_neg hc] using hg

end Foundation
