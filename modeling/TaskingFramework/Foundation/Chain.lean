import Mathlib.Logic.Function.Basic
import Mathlib.Data.List.Nodup
import Mathlib.Data.List.Basic
import Mathlib.Data.Set.Insert

/-!
# Null-terminated pointer chains

A heap of intrusive links is a function `next : α → Option α`; `none` is the null pointer.
`Segment next p l q` says that following `next` from `p` visits exactly the cells of `l` and
then arrives at `q`, and `Chain` is a segment ending in the null pointer. The lemmas describe
how the visited list changes when one link is overwritten.
-/

namespace Foundation

variable {α : Type*} {next next' : α → Option α} {p q r : Option α} {a b : α} {l m : List α}

/-- Following `next` from `p` visits `l` and arrives at `q`. -/
def Segment (next : α → Option α) : Option α → List α → Option α → Prop
  | p, [], q => p = q
  | p, a :: l, q => p = some a ∧ Segment next (next a) l q

/-- Following `next` from `p` visits `l` and ends at the null pointer. -/
abbrev Chain (next : α → Option α) (p : Option α) (l : List α) : Prop :=
  Segment next p l none

@[simp] theorem segment_nil : Segment next p [] q ↔ p = q := Iff.rfl

@[simp] theorem segment_cons :
    Segment next p (a :: l) q ↔ p = some a ∧ Segment next (next a) l q := Iff.rfl

theorem segment_append :
    Segment next p (l ++ m) q ↔ ∃ r, Segment next p l r ∧ Segment next r m q := by
  induction l generalizing p with
  | nil => simp
  | cons a l ih => simp [ih, and_assoc]

theorem Segment.append (h : Segment next p l r) (h' : Segment next r m q) :
    Segment next p (l ++ m) q :=
  segment_append.mpr ⟨r, h, h'⟩

theorem Segment.congr (h : Segment next p l q) (hn : ∀ x ∈ l, next' x = next x) :
    Segment next' p l q := by
  induction l generalizing p with
  | nil => exact h
  | cons a l ih =>
      refine ⟨h.1, ?_⟩
      rw [hn a (by simp)]
      exact ih h.2 fun x hx => hn x (by simp [hx])

theorem Segment.update [DecidableEq α] (h : Segment next p l q) (ha : a ∉ l) (v : Option α) :
    Segment (Function.update next a v) p l q :=
  h.congr fun x hx => Function.update_of_ne (fun he : x = a => ha (he ▸ hx)) _ _

/-- Redirecting the last link of a segment moves its end. -/
theorem Segment.redirect [DecidableEq α] (h : Segment next p (l ++ [a]) q) (ha : a ∉ l)
    (v : Option α) : Segment (Function.update next a v) p (l ++ [a]) v := by
  obtain ⟨r, hl, hr⟩ := segment_append.mp h
  exact (hl.update ha v).append ⟨hr.1, by simp⟩

theorem chain_append :
    Chain next p (l ++ m) ↔ ∃ r, Segment next p l r ∧ Chain next r m := segment_append

theorem Chain.congr (h : Chain next p l) (hn : ∀ x ∈ l, next' x = next x) : Chain next' p l :=
  Segment.congr h hn

theorem Chain.update [DecidableEq α] (h : Chain next p l) (ha : a ∉ l) (v : Option α) :
    Chain (Function.update next a v) p l :=
  Segment.update h ha v

theorem Chain.head (h : Chain next p l) : p = l.head? := by
  cases l with
  | nil => exact h
  | cons a l => exact h.1

theorem chain_none : Chain next none l ↔ l = [] := by
  cases l <;> simp

theorem Chain.eq_nil (h : Chain next none l) : l = [] := chain_none.mp h

theorem Chain.exists_cons (h : Chain next (some a) l) : ∃ m, l = a :: m ∧ Chain next (next a) m := by
  cases l with
  | nil => exact absurd h.head (by simp)
  | cons b m =>
      obtain rfl : a = b := by simpa using h.1
      exact ⟨m, rfl, h.2⟩

/-- A link determines the chain behind it. -/
theorem Chain.unique (h : Chain next p l) (h' : Chain next p m) : l = m := by
  induction l generalizing p m with
  | nil =>
      subst h
      exact h'.eq_nil.symm
  | cons a l ih =>
      obtain ⟨hp, hl⟩ := h
      subst hp
      obtain ⟨k, rfl, hk⟩ := h'.exists_cons
      rw [ih hl hk]

theorem Chain.next_eq (h : Chain next p (l ++ a :: m)) : next a = m.head? := by
  obtain ⟨r, _, hr⟩ := chain_append.mp h
  exact Chain.head hr.2

theorem Chain.suffix (h : Chain next p (l ++ m)) : Chain next m.head? m := by
  obtain ⟨r, _, hr⟩ := chain_append.mp h
  exact Chain.head hr ▸ hr

theorem Chain.prefix (h : Chain next p (l ++ m)) : Segment next p l m.head? := by
  obtain ⟨r, hl, hr⟩ := chain_append.mp h
  exact Chain.head hr ▸ hl

/-- A chain that ends visits no cell twice: both visits would have the same chain behind. -/
theorem Chain.nodup (h : Chain next p l) : l.Nodup := by
  induction l generalizing p with
  | nil => exact List.nodup_nil
  | cons a l ih =>
      refine List.nodup_cons.mpr ⟨fun ha => ?_, ih h.2⟩
      obtain ⟨s, t, rfl⟩ := List.append_of_mem ha
      have hfirst : Chain next (some a) (a :: (s ++ a :: t)) := ⟨rfl, h.2⟩
      have hlater : Chain next (some a) (a :: t) := by
        obtain ⟨r, _, hr⟩ := chain_append.mp h.2
        exact ⟨rfl, hr.2⟩
      have hlen := congrArg List.length (hfirst.unique hlater)
      simp only [List.length_cons, List.length_append] at hlen
      omega

theorem Chain.push [DecidableEq α] (h : Chain next p l) (ha : a ∉ l) :
    Chain (Function.update next a p) (some a) (a :: l) :=
  ⟨rfl, by simpa using h.update ha p⟩

/-- A new cell behind `b`, in the place where the chain went on to `m`. -/
theorem Chain.insert [DecidableEq α] (h : Chain next p (l ++ b :: m)) (ha : a ∉ l ++ b :: m) :
    Chain (Function.update (Function.update next a (next b)) b (some a)) p (l ++ b :: a :: m) := by
  have hnd := h.nodup
  simp only [List.mem_append, List.mem_cons, not_or] at ha
  obtain ⟨hal, hab, ham⟩ := ha
  have hbl : b ∉ l := fun hb => (List.nodup_append.mp hnd).2.2 b hb b (by simp) rfl
  have hbm : b ∉ m := (List.nodup_cons.mp (List.nodup_append.mp hnd).2.1).1
  obtain ⟨r, hl, hb⟩ := chain_append.mp h
  refine chain_append.mpr ⟨r, (hl.update hal _).update hbl _, hb.1, by simp, ?_⟩
  rw [Function.update_of_ne hab, Function.update_self]
  exact (Chain.update hb.2 ham _).update hbm _

/-- Bending the link of `b` around the cell `a` behind it. -/
theorem Chain.bypass [DecidableEq α] (h : Chain next p (l ++ b :: a :: m)) :
    Chain (Function.update next b (next a)) p (l ++ b :: m) := by
  have hnd := h.nodup
  have hbl : b ∉ l := fun hb => (List.nodup_append.mp hnd).2.2 b hb b (by simp) rfl
  have hbm : b ∉ m := fun hb =>
    (List.nodup_cons.mp (List.nodup_append.mp hnd).2.1).1 (List.mem_cons_of_mem a hb)
  obtain ⟨r, hl, hr⟩ := chain_append.mp h
  refine chain_append.mpr ⟨r, hl.update hbl _, hr.1, ?_⟩
  simpa using Chain.update hr.2.2 hbm (next a)

theorem Chain.snoc [DecidableEq α] (h : Chain next p (l ++ [b])) (ha : a ∉ l ++ [b]) :
    Chain (Function.update (Function.update next a none) b (some a)) p (l ++ [b, a]) := by
  simpa [h.next_eq] using h.insert ha

/-- Only the cell in front of `e` links to it. -/
theorem Chain.next_ne {e : α} (h : Chain next p (a :: (l ++ b :: e :: m))) : next a ≠ some e := by
  intro heq
  have hnd := (List.nodup_cons.mp h.nodup).2
  have hhead := Chain.head h.2
  rw [heq] at hhead
  cases l with
  | nil =>
      obtain rfl : e = b := by simpa using hhead
      simp at hnd
  | cons c l =>
      obtain rfl : e = c := by simpa using hhead
      simp at hnd

/-- Behind a cell in front of `a` there is one up to `a`. -/
theorem Chain.next_mem (h : Chain next p (l ++ a :: m)) {x : α} (hx : x ∈ l) :
    ∃ y ∈ l ++ [a], next x = some y := by
  obtain ⟨s, t, rfl⟩ := List.append_of_mem hx
  rw [List.append_assoc, List.cons_append] at h
  have hnext := h.next_eq
  cases t with
  | nil => exact ⟨a, by simp, hnext⟩
  | cons y t => exact ⟨y, by simp, hnext⟩

/-- Cells that all have a successor among them. A walk that meets one of them never ends. -/
def Closed (next : α → Option α) (S : Set α) : Prop :=
  ∀ x ∈ S, ∃ y ∈ S, next x = some y

variable {S : Set α}

theorem Closed.not_chain (h : Closed next S) (ha : a ∈ S) : ¬ Chain next (some a) l := by
  induction l generalizing a with
  | nil => simp
  | cons b l ih =>
      rintro ⟨hab, hl⟩
      obtain rfl : a = b := Option.some.inj hab
      obtain ⟨y, hy, hnext⟩ := h a ha
      rw [hnext] at hl
      exact ih hy hl

theorem Closed.push [DecidableEq α] (h : Closed next S) (hb : b ∈ S) :
    Closed (Function.update next a (some b)) (insert a S) := by
  intro x hx
  by_cases hxa : x = a
  · subst hxa
    exact ⟨b, Set.mem_insert_of_mem _ hb, Function.update_self _ _ _⟩
  · obtain ⟨y, hy, hnext⟩ := h x (hx.resolve_left hxa)
    refine ⟨y, Set.mem_insert_of_mem _ hy, ?_⟩
    rw [Function.update_of_ne hxa, hnext]

theorem Closed.insert [DecidableEq α] (h : Closed next S) (hb : b ∈ S) :
    Closed (Function.update (Function.update next a (next b)) b (some a)) (insert a S) := by
  obtain ⟨c, hc, hnext⟩ := h b hb
  have hpush : Closed (Function.update next a (next b)) (Insert.insert a S) := by
    rw [hnext]
    exact h.push hc
  intro x hx
  by_cases hxb : x = b
  · subst hxb
    exact ⟨a, Set.mem_insert _ _, Function.update_self _ _ _⟩
  · obtain ⟨y, hy, hy'⟩ := hpush x hx
    refine ⟨y, hy, ?_⟩
    rw [Function.update_of_ne hxb, hy']

/-- A cell of the chain that is hung once more behind `b`, at its place or in front of it, closes a
cycle. -/
theorem Chain.insert_again [DecidableEq α] {i j : List α} (h : Chain next p (l ++ b :: m))
    (hsplit : b :: m = i ++ a :: j) :
    Closed (Function.update (Function.update next a (next b)) b (some a))
      {x | x ∈ l ++ (i ++ [a])} := by
  have hchain : Chain next p ((l ++ i) ++ a :: j) := by
    rw [List.append_assoc, ← hsplit]
    exact h
  intro x hx
  by_cases hxb : x = b
  · subst hxb
    exact ⟨a, by simp, Function.update_self _ _ _⟩
  rw [Function.update_of_ne hxb]
  by_cases hxa : x = a
  · subst hxa
    rw [Function.update_self, h.next_eq]
    cases i with
    | nil =>
        simp only [List.nil_append, List.cons.injEq] at hsplit
        exact absurd hsplit.1.symm hxb
    | cons c i =>
        simp only [List.cons_append, List.cons.injEq] at hsplit
        rw [hsplit.2]
        cases i with
        | nil => exact ⟨x, by simp, rfl⟩
        | cons d i => exact ⟨d, by simp, rfl⟩
  · rw [Function.update_of_ne hxa]
    have hin : x ∈ l ++ i := by
      have hx' : x ∈ (l ++ i) ++ [a] := by
        rw [List.append_assoc]
        exact hx
      rcases List.mem_append.mp hx' with hx' | hx'
      · exact hx'
      · exact absurd (List.mem_singleton.mp hx') hxa
    obtain ⟨y, hy, hnext⟩ := hchain.next_mem hin
    refine ⟨y, ?_, hnext⟩
    rw [List.append_assoc] at hy
    exact hy

end Foundation
