import Mathlib.Logic.Basic

/-!
# Bit masks as sets

A bit mask stands for a set of members, each with a bit of its own.
-/

namespace Foundation

variable {w : Nat} {m : BitVec w} {i k : Nat}

theorem mask_eq_zero_iff : m = 0 ↔ ∀ i < w, m.getLsbD i = false := by
  constructor
  · rintro rfl i _
    exact BitVec.getLsbD_zero
  · intro h
    apply BitVec.eq_of_getLsbD_eq
    intro i hi
    rw [h i hi]
    exact BitVec.getLsbD_zero.symm

theorem mask_ne_zero_iff : m ≠ 0 ↔ ∃ i < w, m.getLsbD i = true := by
  rw [ne_eq, mask_eq_zero_iff]
  simp

theorem and_twoPow_ne_zero (hk : k < w) : m &&& BitVec.twoPow w k ≠ 0 ↔ m.getLsbD k = true := by
  rw [mask_ne_zero_iff]
  constructor
  · rintro ⟨i, _, h⟩
    rw [BitVec.getLsbD_and, BitVec.getLsbD_twoPow, Bool.and_eq_true, Bool.and_eq_true,
      decide_eq_true_iff, decide_eq_true_iff] at h
    rw [h.2.2]
    exact h.1
  · intro h
    refine ⟨k, hk, ?_⟩
    rw [BitVec.getLsbD_and, BitVec.getLsbD_twoPow, h]
    simpa using hk

theorem getLsbD_clear (hi : i < w) :
    (m &&& ~~~BitVec.twoPow w k).getLsbD i = true ↔ m.getLsbD i = true ∧ i ≠ k := by
  rw [BitVec.getLsbD_and, BitVec.getLsbD_not, BitVec.getLsbD_twoPow]
  by_cases hik : k = i
  · subst k
    simp [hi]
  · simp [hi, hik, Ne.symm hik]

theorem getLsbD_insert (hk : k < w) :
    (m ||| BitVec.twoPow w k).getLsbD i = true ↔ m.getLsbD i = true ∨ i = k := by
  rw [BitVec.getLsbD_or, BitVec.getLsbD_twoPow, Bool.or_eq_true, Bool.and_eq_true,
    decide_eq_true_iff, decide_eq_true_iff]
  constructor
  · rintro (h | ⟨_, h⟩)
    · exact Or.inl h
    · exact Or.inr h.symm
  · rintro (h | h)
    · exact Or.inl h
    · exact Or.inr ⟨hk, h.symm⟩

theorem twoPow_injective (hi : i < w) (h : BitVec.twoPow w i = BitVec.twoPow w k) : i = k := by
  have hbit := congrArg (fun m => m.getLsbD i) h
  simp only [BitVec.getLsbD_twoPow, hi, decide_true, Bool.true_and] at hbit
  have hand := hbit.symm
  simp only [Bool.and_eq_true, decide_eq_true_iff] at hand
  exact hand.2.symm

theorem twoPow_shiftLeft_one (hk : k + 1 < w) :
    BitVec.twoPow w k <<< 1 = BitVec.twoPow w (k + 1) := by
  apply BitVec.eq_of_getLsbD_eq
  intro i hi
  rw [BitVec.getLsbD_shiftLeft, BitVec.getLsbD_twoPow, BitVec.getLsbD_twoPow]
  by_cases hki : k + 1 = i
  · subst hki
    simp [hk, Nat.lt_of_succ_lt hk]
  · have hne : ¬ (1 ≤ i ∧ k = i - 1) := by omega
    by_cases hi1 : i < 1
    · simp [hi1, hki]
    · have hne' : k ≠ i - 1 := by omega
      simp [hki, hne']

theorem getLsbD_foldr_or {α : Type} (f : α → BitVec w) (l : List α) :
    (l.foldr (fun a m => f a ||| m) 0).getLsbD i = true ↔ ∃ a ∈ l, (f a).getLsbD i = true := by
  induction l with
  | nil => simp
  | cons a l ih =>
      rw [List.foldr_cons, BitVec.getLsbD_or, Bool.or_eq_true, ih]
      simp

end Foundation
