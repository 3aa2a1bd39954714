import Mathlib.Data.List.Sort
import Mathlib.Order.Lattice

/-!
# Queues by priority

Entries with a higher priority stand in front; entries with the same priority stand in the order of
their arrival. Each priority alone is a first in, first out queue.
-/

namespace Foundation

variable {α P : Type*} [LinearOrder P] {priority : α → P} {q : List α} {a b : α} {i : P}

/-- A new entry goes behind the entries whose priority is at least its own. -/
def enter (priority : α → P) (a : α) (q : List α) : List α :=
  q.orderedInsert (fun a b => priority b < priority a) a

def Descending (priority : α → P) (q : List α) : Prop :=
  q.Pairwise fun a b => priority b ≤ priority a

theorem enter_nil : enter priority a [] = [a] := rfl

theorem enter_cons_of_lt (h : priority b < priority a) : enter priority a (b :: q) = a :: b :: q :=
  List.orderedInsert_cons_of_le _ q h

theorem enter_cons_of_le (h : priority a ≤ priority b) :
    enter priority a (b :: q) = b :: enter priority a q :=
  List.orderedInsert_of_not_le _ q (not_lt_of_ge h)

theorem enter_perm : (enter priority a q).Perm (a :: q) := List.perm_orderedInsert _ a q

theorem mem_enter : b ∈ enter priority a q ↔ b = a ∨ b ∈ q := List.mem_orderedInsert _

theorem Descending.enter (h : Descending priority q) : Descending priority (enter priority a q) := by
  induction q with
  | nil => exact List.pairwise_singleton _ a
  | cons b q ih =>
      obtain ⟨hb, hq⟩ := List.pairwise_cons.mp h
      by_cases hlt : priority b < priority a
      · rw [enter_cons_of_lt hlt]
        apply List.pairwise_cons.mpr
        refine ⟨?_, h⟩
        intro c hc
        rcases List.mem_cons.mp hc with rfl | hc
        · exact hlt.le
        · exact (hb c hc).trans hlt.le
      · rw [enter_cons_of_le (le_of_not_gt hlt)]
        apply List.pairwise_cons.mpr
        refine ⟨?_, ih hq⟩
        intro c hc
        rcases mem_enter.mp hc with rfl | hc
        · exact le_of_not_gt hlt
        · exact hb c hc

/-- An entry whose priority no other one is below goes to the end. -/
theorem enter_of_le (h : ∀ b ∈ q, priority a ≤ priority b) : enter priority a q = q ++ [a] := by
  induction q with
  | nil => rfl
  | cons b q ih =>
      rw [enter_cons_of_le (h b List.mem_cons_self), ih fun c hc => h c (List.mem_cons_of_mem b hc)]
      rfl

/-- The entries of the same priority get the new one behind them. -/
theorem Descending.filter_enter (h : Descending priority q) :
    (Foundation.enter priority a q).filter (priority · = priority a) =
      q.filter (priority · = priority a) ++ [a] := by
  induction q with
  | nil => simp [enter_nil]
  | cons b q ih =>
      obtain ⟨hb, hq⟩ := List.pairwise_cons.mp h
      by_cases hlt : priority b < priority a
      · have hnone : (b :: q).filter (priority · = priority a) = [] := by
          rw [List.filter_eq_nil_iff]
          intro c hc
          have hle : priority c ≤ priority b := by
            rcases List.mem_cons.mp hc with rfl | hc
            · exact le_rfl
            · exact hb c hc
          simpa using ne_of_lt (hle.trans_lt hlt)
        rw [enter_cons_of_lt hlt, List.filter_cons_of_pos (by simp), hnone]
        rfl
      · rw [enter_cons_of_le (le_of_not_gt hlt), List.filter_cons, List.filter_cons, ih hq]
        split
        · rfl
        · rfl

theorem filter_enter_of_ne (h : priority a ≠ i) :
    (enter priority a q).filter (priority · = i) = q.filter (priority · = i) := by
  induction q with
  | nil => simp [enter_nil, h]
  | cons b q ih =>
      by_cases hlt : priority b < priority a
      · rw [enter_cons_of_lt hlt, List.filter_cons_of_neg (by simpa using h)]
      · rw [enter_cons_of_le (le_of_not_gt hlt), List.filter_cons, List.filter_cons, ih]

theorem Descending.tail (h : Descending priority (a :: q)) : Descending priority q :=
  (List.pairwise_cons.mp h).2

/-- The entries of the highest priority come first. -/
theorem Descending.le_head (h : Descending priority (a :: q)) (hb : b ∈ a :: q) :
    priority b ≤ priority a := by
  rcases List.mem_cons.mp hb with rfl | hb
  · exact le_rfl
  · exact (List.pairwise_cons.mp h).1 b hb

end Foundation
