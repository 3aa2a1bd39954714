import Mathlib.Data.List.Basic
import Mathlib.Order.Nat

/-!
# Passes over a timed list

The entries of a sorted list are played one after the other, again and again, each pass a period
after the one before. Entries of the same offset are played together. The offsets may exceed the
period: the next pass then begins at a time that is over.
-/

namespace Foundation

variable {α : Type*}

/-- The begin of the pass, the entries played in it, the next one, and those behind it. -/
structure TimedPass (α : Type*) where
  base : Int
  before : List α
  active : α
  behind : List α

namespace TimedPass

variable {offset : α → Nat} {period : Nat} {x y : TimedPass α} {l : List α} {a : α} {now : Int}

def entries (x : TimedPass α) : List α := x.before ++ x.active :: x.behind

def due (offset : α → Nat) (x : TimedPass α) : Int := x.base + offset x.active

theorem active_le (hsorted : x.entries.Pairwise fun a b => offset a ≤ offset b)
    (ha : a ∈ x.active :: x.behind) : offset x.active ≤ offset a := by
  rcases List.mem_cons.mp ha with rfl | hbehind
  · exact Nat.le_refl _
  · exact (List.pairwise_cons.mp (List.pairwise_append.mp hsorted).2.1).1 a hbehind

/-- The entries of `l` are played. The next one follows in the list, or is the first of the next
pass. -/
inductive Moves (offset : α → Nat) (period : Nat) (x : TimedPass α) : List α → TimedPass α → Prop where
  | within {g m : List α} {b : α} (hbehind : x.behind = g ++ b :: m)
      (hgroup : ∀ a ∈ g, offset a = offset x.active) (hlater : offset x.active < offset b) :
      Moves offset period x (x.active :: g) ⟨x.base, x.before ++ x.active :: g, b, m⟩
  | wrap {m : List α} {b : α} (hgroup : ∀ a ∈ x.behind, offset a = offset x.active)
      (hfirst : x.entries = b :: m) :
      Moves offset period x (x.active :: x.behind) ⟨x.base + period, [], b, m⟩

theorem Moves.entries_eq (h : Moves offset period x l y) : y.entries = x.entries := by
  cases h with
  | within hbehind => simp [entries, hbehind]
  | wrap _ hfirst => exact hfirst.symm

theorem Moves.base_le (h : Moves offset period x l y) : x.base ≤ y.base := by
  cases h with
  | within => exact Int.le_refl _
  | wrap => exact Int.le_add_of_nonneg_right (Int.natCast_nonneg period)

/-- What is played is an entry with the time of the active one. -/
theorem Moves.group (h : Moves offset period x l y) (ha : a ∈ l) :
    a ∈ x.active :: x.behind ∧ offset a = offset x.active := by
  cases h with
  | within hbehind hgroup =>
      rcases List.mem_cons.mp ha with rfl | ha
      · exact ⟨List.mem_cons_self, rfl⟩
      · refine ⟨List.mem_cons_of_mem _ ?_, hgroup a ha⟩
        rw [hbehind]
        exact List.mem_append_left _ ha
  | wrap hgroup =>
      rcases List.mem_cons.mp ha with rfl | hb
      · exact ⟨List.mem_cons_self, rfl⟩
      · exact ⟨ha, hgroup a hb⟩

theorem Moves.head (h : Moves offset period x l y) : ∃ g, l = x.active :: g := by
  cases h with
  | within => exact ⟨_, rfl⟩
  | wrap => exact ⟨_, rfl⟩

/-- What is left of a pass is played next, or stays in this pass. -/
theorem Moves.rest (h : Moves offset period x l y) (ha : a ∈ x.active :: x.behind) :
    a ∈ l ∨ y.base = x.base ∧ a ∈ y.active :: y.behind := by
  cases h with
  | within hbehind =>
      rw [hbehind, ← List.cons_append] at ha
      exact (List.mem_append.mp ha).imp id fun hb => ⟨rfl, hb⟩
  | wrap => exact Or.inl ha

/-- The next pass begins no later than a period behind the last entry of a pass. -/
theorem Moves.base_add_le (h : Moves offset period x l y)
    (hsorted : x.entries.Pairwise fun a b => offset a ≤ offset b) (hdue : x.due offset ≤ now) :
    y.base = x.base ∨ ∀ a ∈ x.entries, y.base + offset a ≤ now + period := by
  cases h with
  | within => exact Or.inl rfl
  | wrap hgroup =>
      right
      intro a ha
      have hle : offset a ≤ offset x.active := by
        rcases List.mem_append.mp ha with hbefore | hopen
        · exact (List.pairwise_append.mp hsorted).2.2 a hbefore x.active List.mem_cons_self
        · rcases List.mem_cons.mp hopen with rfl | hbehind
          · exact le_refl _
          · exact (hgroup a hbehind).le
      unfold due at hdue
      show x.base + period + offset a ≤ now + period
      omega

/-- After a first pass that begins less than a period before zero no time is negative. -/
theorem Moves.due_nonneg (h : Moves offset period x l y) (hbase : -(period : Int) ≤ x.base)
    (hdue : 0 ≤ x.due offset) : 0 ≤ y.due offset := by
  unfold due at hdue ⊢
  cases h with
  | @within g m b _ _ hlater =>
      show 0 ≤ x.base + offset b
      omega
  | @wrap m b _ _ =>
      show 0 ≤ x.base + period + offset b
      omega

/-- The steps that may be left until `now`: those of the passes that have begun. -/
def remaining (now : Int) (x : TimedPass α) : Nat :=
  (now + 1 - x.base).toNat * (x.entries.length + 1) + x.behind.length

theorem Moves.remaining_lt (h : Moves offset period x l y) (hperiod : 0 < period)
    (hdue : x.due offset ≤ now) : y.remaining now < x.remaining now := by
  have hentries := h.entries_eq
  unfold remaining
  rw [hentries]
  cases h with
  | within hbehind =>
      rw [hbehind]
      simp only [List.length_append, List.length_cons]
      omega
  | @wrap m b hgroup hfirst =>
      have hless : (now + 1 - (x.base + period)).toNat + 1 ≤ (now + 1 - x.base).toNat := by
        unfold due at hdue
        omega
      have hmul := Nat.mul_le_mul_right (x.entries.length + 1) hless
      rw [Nat.succ_mul] at hmul
      have hlength : m.length < x.entries.length := by
        rw [hfirst]
        exact Nat.lt_succ_self _
      show (now + 1 - (x.base + period)).toNat * (x.entries.length + 1) + m.length < _
      omega

end TimedPass

end Foundation
