import Mathlib.Algebra.Order.Group.Unbundled.Int
import Mathlib.Algebra.Order.Ring.Abs
import Mathlib.Data.List.Induction
import Mathlib.Tactic.Ring
import Mathlib.Tactic.Linarith

/-!
# Numbers with signed digits

The value of a word of digits of either sign, the most significant digit first. The word behind a
digit is worth less than one unit of it, so a cut of the word is wrong by at most the unit that a
negative rest borrows.
-/

namespace Foundation

/-- The value of the digits in the base, the most significant first. -/
def horner (base : ℤ) (digits : List ℤ) : ℤ :=
  digits.foldl (fun value digit => base * value + digit) 0

variable {base d : ℤ} {ds es : List ℤ}

@[simp] theorem horner_nil : horner base [] = 0 := rfl

theorem horner_snoc : horner base (ds ++ [d]) = base * horner base ds + d := by
  rw [horner, List.foldl_append]
  rfl

theorem horner_append :
    horner base (ds ++ es) = base ^ es.length * horner base ds + horner base es := by
  induction es using List.reverseRecOn with
  | nil => simp
  | append_singleton es e ih =>
      rw [← List.append_assoc, horner_snoc, horner_snoc, ih, List.length_append, List.length_singleton,
        pow_succ]
      ring

theorem horner_cons : horner base (d :: es) = base ^ es.length * d + horner base es := by
  have h : horner base ([d] ++ es) = base ^ es.length * horner base [d] + horner base es :=
    horner_append
  simpa [horner] using h

theorem horner_replicate_zero (n : ℕ) : horner base (List.replicate n 0) = 0 := by
  induction n with
  | zero => rfl
  | succ n ih => rw [List.replicate_succ, horner_cons, ih, mul_zero, add_zero]

/-- Digits below the base are together worth less than one unit of the digit before them. -/
theorem abs_horner_lt (h : ∀ e ∈ es, |e| < base) : |horner base es| < base ^ es.length := by
  induction es using List.reverseRecOn with
  | nil => simp
  | append_singleton es e ih =>
      have he : |e| < base := h e (by simp)
      have hes := ih (fun x hx => h x (by simp [hx]))
      have hbase : 0 < base := lt_of_le_of_lt (abs_nonneg e) he
      rw [horner_snoc, List.length_append, List.length_singleton, pow_succ]
      calc |base * horner base es + e|
          ≤ |base * horner base es| + |e| := abs_add_le _ _
        _ = base * |horner base es| + |e| := by rw [abs_mul, abs_of_pos hbase]
        _ ≤ base * (base ^ es.length - 1) + |e| := by
            have hle : |horner base es| ≤ base ^ es.length - 1 := by omega
            have := mul_le_mul_of_nonneg_left hle hbase.le
            linarith
        _ < base ^ es.length * base := by linarith

/-- The first digit decides the sign unless it is zero. -/
theorem horner_cons_neg_iff (hd : d ≠ 0) (h : ∀ e ∈ es, |e| < base) :
    horner base (d :: es) < 0 ↔ d < 0 := by
  obtain ⟨hlow, hhigh⟩ := abs_lt.mp (abs_horner_lt h)
  rw [horner_cons]
  constructor
  · intro hneg
    by_contra hpos
    have hone : 1 ≤ d := by omega
    have := le_mul_of_one_le_right (by linarith : 0 ≤ base ^ es.length) hone
    linarith
  · intro hneg
    have hone : d ≤ -1 := by omega
    have := mul_le_mul_of_nonneg_left hone (by linarith : 0 ≤ base ^ es.length)
    linarith

/-- Cutting off the last digits rounds down: a negative rest takes one unit from the kept digits. -/
theorem horner_append_div (h : ∀ e ∈ es, |e| < base) :
    horner base (ds ++ es) / base ^ es.length =
      horner base ds + if horner base es < 0 then -1 else 0 := by
  obtain ⟨hlow, hhigh⟩ := abs_lt.mp (abs_horner_lt h)
  have hunit : (0 : ℤ) < base ^ es.length := by linarith
  rw [horner_append, Int.mul_add_ediv_left _ _ hunit.ne']
  split
  next hneg =>
    have hdiv : horner base es / base ^ es.length = -1 := by
      rw [Int.ediv_eq_iff_of_pos hunit]
      constructor <;> linarith
    rw [hdiv]
  next hneg => rw [Int.ediv_eq_zero_of_lt (by omega) hhigh]

end Foundation
