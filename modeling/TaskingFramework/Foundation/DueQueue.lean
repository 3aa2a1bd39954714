import Mathlib.Order.Basic
import Mathlib.Order.Lattice
import Mathlib.Data.List.Basic
import Mathlib.Data.List.Pairwise
import Mathlib.Data.List.TakeWhile

/-!
# Queues with a due part

Entries of a queue have a time. The entries that are due at the moment `now` stand in front, in any
order; behind them the others are sorted by time. As `now` passes, entries join the due part.
-/

namespace Foundation

variable {α T : Type*} [LinearOrder T] {now t u : T} {time : α → T} {q l r : List α} {a b e : α}

/-- Behind an entry that is not due yet only later ones follow. -/
def DueOrdered (now : T) (time : α → T) (q : List α) : Prop :=
  q.Pairwise fun a b => now < time a → time a ≤ time b

/-- The entries up to a time. -/
def upTo (time : α → T) (t : T) (q : List α) : List α := q.filter fun a => decide (time a ≤ t)

/-- The entries before a time. -/
def before (time : α → T) (t : T) (q : List α) : List α := q.filter fun a => decide (time a < t)

/-- The entries behind a time. -/
def behind (time : α → T) (t : T) (q : List α) : List α := q.filter fun a => decide (t < time a)

theorem mem_upTo : a ∈ upTo time t q ↔ a ∈ q ∧ time a ≤ t := by simp [upTo]

theorem mem_before : a ∈ before time t q ↔ a ∈ q ∧ time a < t := by simp [before]

theorem mem_behind : a ∈ behind time t q ↔ a ∈ q ∧ t < time a := by simp [behind]

theorem upTo_eq_nil : upTo time t q = [] ↔ ∀ a ∈ q, t < time a := by
  simp [upTo, List.filter_eq_nil_iff]

theorem upTo_eq_self : upTo time t q = q ↔ ∀ a ∈ q, time a ≤ t := by
  simp [upTo, List.filter_eq_self]

theorem before_eq_nil : before time t q = [] ↔ ∀ a ∈ q, t ≤ time a := by
  simp [before, List.filter_eq_nil_iff]

theorem before_eq_self : before time t q = q ↔ ∀ a ∈ q, time a < t := by
  simp [before, List.filter_eq_self]

theorem behind_eq_self : behind time t q = q ↔ ∀ a ∈ q, t < time a := by
  simp [behind, List.filter_eq_self]

theorem upTo_append : upTo time t (l ++ r) = upTo time t l ++ upTo time t r :=
  List.filter_append l r

theorem before_append : before time t (l ++ r) = before time t l ++ before time t r :=
  List.filter_append l r

theorem dueOrdered_nil : DueOrdered now time ([] : List α) := List.Pairwise.nil

theorem dueOrdered_cons :
    DueOrdered now time (a :: q) ↔
      (∀ b ∈ q, now < time a → time a ≤ time b) ∧ DueOrdered now time q := List.pairwise_cons

theorem DueOrdered.mono (h : DueOrdered now time q) (hn : now ≤ u) : DueOrdered u time q :=
  h.imp fun hab hu => hab (lt_of_le_of_lt hn hu)

theorem DueOrdered.congr {time' : α → T} (h : DueOrdered now time q)
    (ht : ∀ a ∈ q, time' a = time a) : DueOrdered now time' q := by
  refine List.Pairwise.imp_of_mem (fun ha hb hab => ?_) h
  rw [ht _ ha, ht _ hb]
  exact hab

theorem DueOrdered.sublist (h : DueOrdered now time q) (hl : l.Sublist q) :
    DueOrdered now time l := List.Pairwise.sublist hl h

theorem DueOrdered.push_due (h : DueOrdered now time q) (ha : time a ≤ now) :
    DueOrdered now time (a :: q) :=
  dueOrdered_cons.mpr ⟨fun _ _ hlt => absurd hlt (not_lt_of_ge ha), h⟩

/-- Everything up to a time that is not past stands in front of everything behind it. -/
theorem DueOrdered.split (h : DueOrdered now time q) (ht : now ≤ t) :
    q = upTo time t q ++ behind time t q := by
  induction q with
  | nil => rfl
  | cons a q ih =>
      rcases dueOrdered_cons.mp h with ⟨ha, hq⟩
      by_cases hat : time a ≤ t
      · have hnot : ¬ t < time a := not_lt_of_ge hat
        rw [upTo, behind, List.filter_cons_of_pos (by simpa using hat),
          List.filter_cons_of_neg (by simpa using hat), List.cons_append]
        exact congrArg _ (ih hq)
      · have hlt : t < time a := lt_of_not_ge hat
        have hall : ∀ b ∈ q, t < time b := fun b hb =>
          lt_of_lt_of_le hlt (ha b hb (lt_of_le_of_lt ht hlt))
        have hall : ∀ b ∈ a :: q, t < time b := List.forall_mem_cons.mpr ⟨hlt, hall⟩
        rw [upTo_eq_nil.mpr hall, behind_eq_self.mpr hall, List.nil_append]

/-- The place of a new entry: behind everything up to its time. -/
def insertAt (time : α → T) (t : T) (e : α) (q : List α) : List α :=
  upTo time t q ++ e :: behind time t q

theorem DueOrdered.insert (h : DueOrdered now time (l ++ r)) (hl : ∀ a ∈ l, time a ≤ time e)
    (hr : ∀ b ∈ r, time e < time b) : DueOrdered now time (l ++ e :: r) := by
  rcases List.pairwise_append.mp h with ⟨hleft, hright, hcross⟩
  refine List.pairwise_append.mpr ⟨hleft, ?_, ?_⟩
  · exact dueOrdered_cons.mpr ⟨fun b hb _ => le_of_lt (hr b hb), hright⟩
  · intro a ha b hb hnow
    rcases List.mem_cons.mp hb with rfl | hb
    · exact hl a ha
    · exact hcross a ha b hb hnow

/-- An entry in front of another one is due, or not later. -/
theorem DueOrdered.due_or_le (h : DueOrdered now time (l ++ e :: r)) (ha : a ∈ l) :
    time a ≤ now ∨ time a ≤ time e := by
  by_cases hnow : now < time a
  · exact Or.inr ((List.pairwise_append.mp h).2.2 a ha e List.mem_cons_self hnow)
  · exact Or.inl (le_of_not_gt hnow)

/-- Whether all entries are due or behind a future time shows at the last entry up to this time. -/
theorem DueOrdered.due_or_behind_iff (h : DueOrdered now time (l ++ e :: r)) (ht : now < t)
    (he : time e ≤ t) (hr : ∀ a ∈ r, t < time a) :
    (∀ a ∈ l ++ e :: r, time a ≤ now ∨ t < time a) ↔ time e ≠ t ∧ time e ≤ now := by
  constructor
  · intro hall
    have hdue := (hall e (by simp)).resolve_right (not_lt_of_ge he)
    exact ⟨ne_of_lt (lt_of_le_of_lt hdue ht), hdue⟩
  · rintro ⟨_, hdue⟩ a ha
    rcases List.mem_append.mp ha with ha | ha
    · exact Or.inl ((h.due_or_le ha).elim id fun hle => le_trans hle hdue)
    · rcases List.mem_cons.mp ha with rfl | ha
      · exact Or.inl hdue
      · exact Or.inr (hr a ha)

/-- An initial part of a list that is closed under going forward. -/
theorem takeWhile_eq_filter {p : α → Bool} (h : q.Pairwise fun a b => p b = true → p a = true) :
    q.takeWhile p = q.filter p := by
  induction q with
  | nil => rfl
  | cons a q ih =>
      rcases List.pairwise_cons.mp h with ⟨ha, hq⟩
      cases hpa : p a with
      | true => rw [List.takeWhile_cons_of_pos hpa, List.filter_cons_of_pos hpa, ih hq]
      | false =>
          rw [List.takeWhile_cons_of_neg (by simp [hpa]), List.filter_cons_of_neg (by simp [hpa])]
          symm
          rw [List.filter_eq_nil_iff]
          intro b hb hpb
          simp [ha b hb hpb] at hpa

theorem DueOrdered.split_before (h : DueOrdered now time q) (ht : now < t) :
    ∃ r, q = before time t q ++ r ∧ ∀ b ∈ r, t ≤ time b := by
  have hpair : q.Pairwise fun a b => decide (time b < t) = true → decide (time a < t) = true := by
    refine List.Pairwise.imp (fun {a b} hab hb => ?_) h
    rw [decide_eq_true_iff] at hb ⊢
    by_cases ha : now < time a
    · exact lt_of_le_of_lt (hab ha) hb
    · exact lt_of_le_of_lt (le_of_not_gt ha) ht
  refine ⟨q.dropWhile fun a => decide (time a < t), ?_, ?_⟩
  · rw [before, ← takeWhile_eq_filter hpair, List.takeWhile_append_dropWhile]
  · intro b hb
    cases hd : q.dropWhile fun a => decide (time a < t) with
    | nil => simp [hd] at hb
    | cons c d =>
        have hc : ¬ time c < t := by
          have hne : (q.dropWhile fun a => decide (time a < t)) ≠ [] := by simp [hd]
          have hhead := List.head_dropWhile_not (fun a => decide (time a < t)) hne
          simpa [hd] using hhead
        have hc : t ≤ time c := le_of_not_gt hc
        rw [hd] at hb
        rcases List.mem_cons.mp hb with rfl | hb
        · exact hc
        · have hsub : DueOrdered now time (c :: d) :=
            hd ▸ h.sublist (List.dropWhile_sublist _)
          exact le_trans hc ((dueOrdered_cons.mp hsub).1 b hb (lt_of_lt_of_le ht hc))

/-- The last entry that is earlier than a given one. -/
def predecessor (time : α → T) (q : List α) (a : α) : Option α := (before time (time a) q).getLast?

theorem predecessor_insert_of_le (h : time a ≤ time e) :
    predecessor time (l ++ e :: r) a = predecessor time (l ++ r) a := by
  have he : ¬ time e < time a := not_lt_of_ge h
  simp [predecessor, before, List.filter_append, he]

theorem predecessor_insert_of_lt (h : time e < time a) :
    predecessor time (l ++ e :: r) a =
      if before time (time a) r = [] then some e else predecessor time (l ++ r) a := by
  have hsplit : before time (time a) (l ++ e :: r) =
      before time (time a) l ++ e :: before time (time a) r := by
    simp [before, List.filter_append, h]
  rw [predecessor, hsplit, List.getLast?_append]
  by_cases hr : before time (time a) r = []
  · simp [hr]
  · rw [if_neg hr, predecessor, before_append, List.getLast?_append, List.getLast?_cons]
    cases hlast : (before time (time a) r).getLast? with
    | none => exact absurd (List.getLast?_eq_none_iff.mp hlast) hr
    | some b => simp

/-- Where an entry is taken out, the entries that led to it lead to the entry in front of it. -/
theorem predecessor_of_before_nil (h : DueOrdered now time (l ++ e :: r)) (ha : now < time a)
    (he : time e < time a) (hr : before time (time a) r = []) :
    predecessor time (l ++ r) a = l.getLast? := by
  have hall : before time (time a) l = l := by
    refine before_eq_self.mpr fun b hb => ?_
    rcases h.due_or_le hb with hdue | hle
    · exact lt_of_le_of_lt hdue ha
    · exact lt_of_le_of_lt hle he
  rw [predecessor, before_append, hr, hall, List.append_nil]

/-- The future entries of the first block are those without an earlier entry. -/
theorem DueOrdered.mem_block {n : α} (h : DueOrdered now time (n :: q)) (ha : a ∈ n :: q)
    (hnow : now < time a) :
    a ∈ (n :: q).takeWhile (fun b => decide (time b = time n)) ↔
      before time (time a) (n :: q) = [] := by
  constructor
  · intro hblock
    have heq : time a = time n := by simpa using List.mem_takeWhile_imp hblock
    rw [before_eq_nil]
    intro b hb
    rcases List.mem_cons.mp hb with rfl | hb
    · exact le_of_eq heq
    · rw [heq]
      exact (dueOrdered_cons.mp h).1 b hb (heq ▸ hnow)
  · intro hnil
    rw [before_eq_nil] at hnil
    have hfuture : ∀ b ∈ n :: q, now < time b := fun b hb => lt_of_lt_of_le hnow (hnil b hb)
    have hn : now < time n := hfuture n List.mem_cons_self
    have hleast : ∀ b ∈ n :: q, time n ≤ time b := by
      intro b hb
      rcases List.mem_cons.mp hb with rfl | hb
      · exact le_rfl
      · exact (dueOrdered_cons.mp h).1 b hb hn
    have hpair : (n :: q).Pairwise fun a b =>
        decide (time b = time n) = true → decide (time a = time n) = true := by
      refine List.Pairwise.imp_of_mem (fun {b c} hb _ hbc hc => ?_) h
      rw [decide_eq_true_iff] at hc ⊢
      exact le_antisymm (hc ▸ hbc (hfuture b hb)) (hleast b hb)
    rw [takeWhile_eq_filter hpair, List.mem_filter, decide_eq_true_iff]
    exact ⟨ha, le_antisymm (hnil n List.mem_cons_self) (hleast a ha)⟩

end Foundation
