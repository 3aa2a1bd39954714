import Mathlib.Algebra.Order.Ring.Nat
import Mathlib.Data.List.Nodup

/-!
# Repeated lists of timed entries

The entries of a list have offsets below a period, and the list is repeated with this period. A position
is an entry in one of the passes; what is played up to a position are all entries of the earlier passes
and those in front of it.
-/

namespace Foundation

variable {α : Type*}

/-- A list of different entries, sorted by offsets below the period, and the time of its first pass. -/
structure TimedCycle (α : Type*) where
  entries : List α
  offset : α → Nat
  start : Nat
  period : Nat
  sorted : entries.Pairwise fun a b => offset a ≤ offset b
  inside : ∀ a ∈ entries, offset a < period
  nodup : entries.Nodup

namespace TimedCycle

variable {c : TimedCycle α} {l m : List α} {a : α} {i n : Nat}

/-- The time of the entry `a` in the pass `i`. -/
def due (c : TimedCycle α) (i : Nat) (a : α) : Nat := c.start + i * c.period + c.offset a

/-- Every pass ends before the next one starts. -/
theorem due_lt (ha : a ∈ c.entries) (hi : i < n) : c.due i a < c.start + n * c.period := by
  have hoffset := c.inside a ha
  have hmul := Nat.mul_le_mul_right c.period (Nat.succ_le_of_lt hi)
  rw [Nat.succ_mul] at hmul
  unfold due
  omega

/-- The entries of the passes before `n`, and those of `l` in the pass `n`. -/
def played (c : TimedCycle α) : Nat → List α → List (Nat × α)
  | 0, l => l.map fun a => (0, a)
  | n + 1, l => c.played n c.entries ++ l.map fun a => (n + 1, a)

theorem played_succ_nil : c.played (n + 1) [] = c.played n c.entries := List.append_nil _

theorem played_append : c.played n (l ++ m) = c.played n l ++ m.map fun a => (n, a) := by
  cases n with
  | zero => simp [played]
  | succ n => simp [played]

theorem mem_played (hl : l ⊆ c.entries) :
    (i, a) ∈ c.played n l ↔ i < n ∧ a ∈ c.entries ∨ i = n ∧ a ∈ l := by
  induction n generalizing l with
  | zero =>
      rw [played, List.mem_map]
      constructor
      · intro h
        obtain ⟨b, hb, heq⟩ := h
        obtain ⟨rfl, rfl⟩ := Prod.mk.inj heq
        exact Or.inr ⟨rfl, hb⟩
      · intro h
        rcases h with ⟨hi, _⟩ | ⟨rfl, ha⟩
        · exact absurd hi (Nat.not_lt_zero i)
        · exact ⟨a, ha, rfl⟩
  | succ n ih =>
      rw [played, List.mem_append, ih (List.Subset.refl _), List.mem_map]
      constructor
      · intro h
        rcases h with (⟨hi, ha⟩ | ⟨rfl, ha⟩) | ⟨b, hb, heq⟩
        · exact Or.inl ⟨Nat.lt_succ_of_lt hi, ha⟩
        · exact Or.inl ⟨Nat.lt_succ_self i, ha⟩
        · obtain ⟨rfl, rfl⟩ := Prod.mk.inj heq
          exact Or.inr ⟨rfl, hb⟩
      · intro h
        rcases h with ⟨hi, ha⟩ | ⟨rfl, ha⟩
        · rcases Nat.lt_succ_iff_lt_or_eq.mp hi with hi | rfl
          · exact Or.inl (Or.inl ⟨hi, ha⟩)
          · exact Or.inl (Or.inr ⟨rfl, ha⟩)
        · exact Or.inr ⟨a, ha, rfl⟩

theorem played_nodup (hl : l.Sublist c.entries) : (c.played n l).Nodup := by
  have hpass : ∀ {n : Nat} {l : List α}, l.Sublist c.entries → (l.map fun a => (n, a)).Nodup := by
    intro n l hl
    exact (c.nodup.sublist hl).map fun a b hab => (Prod.mk.inj hab).2
  induction n generalizing l with
  | zero => exact hpass hl
  | succ n ih =>
      apply List.nodup_append.mpr
      refine ⟨ih (List.Sublist.refl _), hpass hl, ?_⟩
      intro x hx y hy heq
      subst heq
      obtain ⟨a, _, rfl⟩ := List.mem_map.mp hy
      rcases (mem_played (List.Subset.refl _)).mp hx with ⟨hlt, _⟩ | ⟨heq, _⟩
      · exact absurd hlt (by omega)
      · exact absurd heq (by omega)

/-- The entries are played in the order of their times. -/
theorem played_ordered (hl : l.Sublist c.entries) :
    (c.played n l).Pairwise fun x y => c.due x.1 x.2 ≤ c.due y.1 y.2 := by
  have hpass : ∀ {n : Nat} {l : List α}, l.Sublist c.entries →
      (l.map fun a => (n, a)).Pairwise fun x y => c.due x.1 x.2 ≤ c.due y.1 y.2 := by
    intro n l hl
    apply List.pairwise_map.mpr
    exact (c.sorted.sublist hl).imp fun hab => Nat.add_le_add_left hab _
  induction n generalizing l with
  | zero => exact hpass hl
  | succ n ih =>
      apply List.pairwise_append.mpr
      refine ⟨ih (List.Sublist.refl _), hpass hl, ?_⟩
      intro x hx y hy
      obtain ⟨a, _, rfl⟩ := List.mem_map.mp hy
      obtain ⟨i, b⟩ := x
      have hlt : c.due i b < c.start + (n + 1) * c.period := by
        rcases (mem_played (List.Subset.refl _)).mp hx with ⟨hi, hb⟩ | ⟨rfl, hb⟩
        · exact due_lt hb (Nat.lt_succ_of_lt hi)
        · exact due_lt hb (Nat.lt_succ_self i)
      exact hlt.le.trans (Nat.le_add_right _ _)

/-- The entry that is played next. -/
structure Position (c : TimedCycle α) where
  pass : Nat
  before : List α
  active : α
  behind : List α
  split : c.entries = before ++ active :: behind

namespace Position

variable {x : c.Position}

def due (x : c.Position) : Nat := c.due x.pass x.active

def played (x : c.Position) : List (Nat × α) := c.played x.pass x.before

theorem active_mem (x : c.Position) : x.active ∈ c.entries := by
  rw [x.split]
  exact List.mem_append_right _ List.mem_cons_self

theorem before_sublist (x : c.Position) : x.before.Sublist c.entries := by
  rw [x.split]
  exact List.sublist_append_left _ _

theorem mem_played : (i, a) ∈ x.played ↔ i < x.pass ∧ a ∈ c.entries ∨ i = x.pass ∧ a ∈ x.before :=
  TimedCycle.mem_played x.before_sublist.subset

/-- What has not been played is not due before the next entry. -/
theorem due_le_of_not_played (ha : a ∈ c.entries) (h : (i, a) ∉ x.played) : x.due ≤ c.due i a := by
  rw [mem_played, not_or] at h
  rcases Nat.lt_trichotomy i x.pass with hi | rfl | hi
  · exact absurd ⟨hi, ha⟩ h.1
  · have hbehind : a ∈ x.active :: x.behind := by
      have hmem := ha
      rw [x.split] at hmem
      exact (List.mem_append.mp hmem).resolve_left fun hb => h.2 ⟨rfl, hb⟩
    have hsorted := c.sorted
    rw [x.split] at hsorted
    have hactive := List.pairwise_cons.mp (List.pairwise_append.mp hsorted).2.1
    apply Nat.add_le_add_left
    rcases List.mem_cons.mp hbehind with rfl | hb
    · exact le_rfl
    · exact hactive.1 a hb
  · exact (due_lt x.active_mem hi).le.trans (Nat.le_add_right _ _)

/-- What has been played was due. -/
theorem due_le_of_played (h : (i, a) ∈ x.played) : c.due i a ≤ x.due := by
  rcases mem_played.mp h with ⟨hi, ha⟩ | ⟨rfl, ha⟩
  · exact (due_lt ha hi).le.trans (Nat.le_add_right _ _)
  · have hsorted := c.sorted
    rw [x.split] at hsorted
    exact Nat.add_le_add_left
      ((List.pairwise_append.mp hsorted).2.2 a ha x.active List.mem_cons_self) _

/-- From `x` to `y` the entries of `l` are played, all at the time of `x`. -/
structure Steps (x : c.Position) (l : List α) (y : c.Position) : Prop where
  played : y.played = x.played ++ l.map fun a => (x.pass, a)
  due : ∀ a ∈ l, c.due x.pass a = x.due
  later : x.due < y.due

variable {y : c.Position}

/-- No entry is due between the two positions. -/
theorem Steps.due_le (h : x.Steps l y) (ha : a ∈ c.entries) (hlater : x.due < c.due i a) :
    y.due ≤ c.due i a := by
  apply due_le_of_not_played ha
  intro hmem
  rw [h.played, List.mem_append, List.mem_map] at hmem
  rcases hmem with hmem | ⟨b, hb, heq⟩
  · exact absurd (due_le_of_played hmem) (not_le_of_gt hlater)
  · obtain ⟨rfl, rfl⟩ := Prod.mk.inj heq
    rw [h.due _ hb] at hlater
    exact absurd hlater (lt_irrefl _)

variable {b : α} {g k : List α}

theorem due_group (hg : ∀ t ∈ g, c.offset t = c.offset x.active) :
    ∀ a ∈ x.active :: g, c.due x.pass a = x.due := by
  intro a ha
  rcases List.mem_cons.mp ha with rfl | ha
  · rfl
  · show c.start + x.pass * c.period + c.offset a = c.start + x.pass * c.period + c.offset x.active
    rw [hg a ha]

/-- The next position within the pass. -/
def within (x : c.Position) (h : x.behind = g ++ b :: k) : c.Position where
  pass := x.pass
  before := x.before ++ x.active :: g
  active := b
  behind := k
  split := by rw [x.split, h, List.append_assoc, List.cons_append]

theorem steps_within (h : x.behind = g ++ b :: k) (hg : ∀ t ∈ g, c.offset t = c.offset x.active)
    (hb : c.offset x.active < c.offset b) : x.Steps (x.active :: g) (x.within h) :=
  ⟨played_append, due_group hg, Nat.add_lt_add_left hb _⟩

/-- The begin of a pass. -/
def first (n : Nat) (h : c.entries = b :: k) : c.Position := ⟨n, [], b, k, h⟩

theorem steps_first (h : c.entries = b :: k) (hbehind : x.behind = g)
    (hg : ∀ t ∈ g, c.offset t = c.offset x.active) :
    x.Steps (x.active :: g) (first (x.pass + 1) h) := by
  refine ⟨?_, due_group hg, ?_⟩
  · have hentries : c.entries = x.before ++ x.active :: g := by rw [x.split, hbehind]
    show c.played (x.pass + 1) [] = _
    rw [played_succ_nil, hentries, played_append]
    rfl
  · exact (due_lt x.active_mem (Nat.lt_succ_self _)).trans_le (Nat.le_add_right _ _)

end Position

end TimedCycle

end Foundation
