import TaskingFramework.Event.SortedSchedule
import TaskingFramework.Foundation.Runs

/-!
# Adding triggers to a periodic schedule

`add` does not look whether the trigger is in the list. A trigger that is added once more is hung
behind a trigger that stands at its place or in front of it, and the list runs in a circle.
-/

set_option linter.unusedSectionVars false

namespace TaskingFramework

open Foundation

namespace Schedules

variable {π θ : Type} [DecidableEq π] [DecidableEq θ] {s s' : Schedules π θ} {p : π} {t a b : θ}
  {offsetTime : θ → Nat} {l ts : List θ} {S : Set θ} {fuel offset : Nat}

/-- The schedules of a system before the first call. -/
def fresh (offsetTime : θ → Nat) : Schedules π θ :=
  ⟨fun _ => .init, fun t => ⟨offsetTime t, none⟩⟩

/-- The calls of `add` for one schedule. -/
def Adds (p : π) (s : Schedules π θ) (ts : List θ) (s' : Schedules π θ) : Prop :=
  Run (fun s t s' => Returns (fun fuel => sortIn fuel s p t) s') s ts s'

/-- The list of the schedule never comes to its end. -/
def Circular (s : Schedules π θ) (p : π) : Prop :=
  ∃ S : Set θ, Closed s.next S ∧ ∃ a ∈ S, (s.schedule p).triggers = some a

private theorem Circular.not_chain (h : Circular s p) : ¬ Chain s.next (s.schedule p).triggers l := by
  obtain ⟨S, hclosed, a, ha, hhead⟩ := h
  rw [hhead]
  exact hclosed.not_chain ha

private theorem searchPrev_mem (h : Closed s.next S) (ha : a ∈ S)
    (hret : searchPrev s offset fuel a = .ok b) :
    b ∈ S := by
  induction fuel generalizing a with
  | zero => cases hret
  | succ fuel ih =>
      obtain ⟨c, hc, hnext⟩ := h a ha
      rw [next] at hnext
      rw [searchPrev, hnext] at hret
      simp only at hret
      split at hret
      · exact ih hc hret
      · exact Except.ok.inj hret ▸ ha

private theorem searchPrev_lt (hret : searchPrev s offset fuel a = .ok b) :
    b = a ∨ (s.trigger b).offsetTime < offset := by
  induction fuel generalizing a with
  | zero => cases hret
  | succ fuel ih =>
      rw [searchPrev] at hret
      split at hret
      · split at hret
        next c _ hlt =>
          rcases ih hret with rfl | hb
          · exact Or.inr hlt
          · exact Or.inr hb
        next => exact Or.inl (Except.ok.inj hret).symm
      · exact Or.inl (Except.ok.inj hret).symm

private theorem sortIn_cases (h : sortIn fuel s p t = .ok s') :
    ((s.schedule p).triggers = none ∧
      s' = (s.setSchedule p { s.schedule p with triggers := some t }).setNext t none) ∨
    (∃ head, (s.schedule p).triggers = some head ∧
      (s.trigger t).offsetTime < (s.trigger head).offsetTime ∧
      s' = (s.setNext t (some head)).setSchedule p { s.schedule p with triggers := some t }) ∨
    ∃ head prev, (s.schedule p).triggers = some head ∧
      ¬ (s.trigger t).offsetTime < (s.trigger head).offsetTime ∧
      searchPrev s (s.trigger t).offsetTime fuel head = .ok prev ∧
      s' = (s.setNext t (s.next prev)).setNext prev (some t) := by
  rw [sortIn] at h
  split at h
  next hnone => exact Or.inl ⟨hnone, (Except.ok.inj h).symm⟩
  next head hhead =>
    split at h
    next hlt => exact Or.inr (Or.inl ⟨head, hhead, hlt, (Except.ok.inj h).symm⟩)
    next hlt =>
      obtain ⟨prev, hprev, h⟩ := bind_eq_ok.mp h
      exact Or.inr (Or.inr ⟨head, prev, hhead, hlt, hprev, (Except.ok.inj h).symm⟩)

private theorem Circular.sortIn (h : Circular s p) (hret : Schedules.sortIn fuel s p t = .ok s') :
    Circular s' p := by
  obtain ⟨S, hclosed, a, ha, hhead⟩ := h
  rcases sortIn_cases hret with ⟨hnone, -⟩ | ⟨head, hsome, -, rfl⟩ | ⟨head, prev, hsome, -, hprev, rfl⟩
  · rw [hhead] at hnone
    cases hnone
  · obtain rfl : a = head := Option.some.inj (hhead.symm.trans hsome)
    refine ⟨insert t S, ?_, t, Set.mem_insert _ _, by simp [setSchedule]⟩
    have hnext : ((s.setNext t (some a)).setSchedule p
        { s.schedule p with triggers := some t }).next = (s.setNext t (some a)).next := rfl
    rw [hnext, next_setNext]
    exact hclosed.push ha
  · obtain rfl : a = head := Option.some.inj (hhead.symm.trans hsome)
    refine ⟨insert t S, ?_, a, Set.mem_insert_of_mem _ ha, hsome⟩
    rw [next_setNext, next_setNext]
    exact hclosed.insert (searchPrev_mem hclosed ha hprev)

private theorem Lists.sortIn_again (h : Lists offsetTime s p l) (ht : t ∈ l)
    (hret : Returns (fun fuel => Schedules.sortIn fuel s p t) s') : Circular s' p := by
  cases l with
  | nil => exact absurd ht List.not_mem_nil
  | cons head l =>
      have hhead : (s.schedule p).triggers = some head := h.chain.1
      have hlt : ¬ (s.trigger t).offsetTime < (s.trigger head).offsetTime := by
        rw [h.offset, h.offset]
        rcases List.mem_cons.mp ht with rfl | ht
        · exact lt_irrefl _
        · exact not_lt.mpr ((List.pairwise_cons.mp h.sorted).1 t ht)
      obtain ⟨k, b, m, hsplit, hsearch, -, -⟩ :=
        searchPrev_returns (l := []) h.chain (le_of_not_gt hlt)
      rw [List.nil_append] at hsplit
      have hsorted : (k ++ b :: m).Pairwise fun x y => offsetTime x ≤ offsetTime y := hsplit ▸ h.sorted
      have hchain : Chain s.next (s.schedule p).triggers (k ++ b :: m) := hsplit ▸ h.chain
      obtain rfl : s' = (s.setNext t (s.next b)).setNext b (some t) := by
        apply hret.unique
        simp only [Schedules.sortIn, hhead, if_neg hlt]
        exact hsearch.bind (returns_ok _)
      -- the triggers in front of `b` were passed for a smaller offset
      have hbehind : t ∈ b :: m := by
        rw [hsplit] at ht
        rcases List.mem_append.mp ht with htk | htm
        · exfalso
          obtain ⟨fuel, hfuel⟩ := hsearch.exists
          rcases searchPrev_lt hfuel with rfl | hb
          · cases k with
            | nil => exact List.not_mem_nil htk
            | cons c k =>
                obtain rfl : b = c := (List.cons.inj hsplit).1
                have := (List.nodup_cons.mp hchain.nodup).1
                simp at this
          · rw [h.offset, h.offset] at hb
            have hle := (List.pairwise_append.mp hsorted).2.2 t htk b List.mem_cons_self
            omega
        · exact htm
      obtain ⟨i, j, hcut⟩ := List.append_of_mem hbehind
      refine ⟨{x | x ∈ k ++ (i ++ [t])}, ?_, head, ?_, hhead⟩
      · rw [next_setNext, next_setNext]
        exact hchain.insert_again hcut
      · show head ∈ k ++ (i ++ [t])
        rw [hcut] at hsplit
        cases k with
        | nil =>
            cases i with
            | nil => simp [(List.cons.inj hsplit).1]
            | cons c i => simp [(List.cons.inj hsplit).1]
        | cons c k => simp [(List.cons.inj hsplit).1]

private theorem Adds.lists_or_circular (h : Adds p (fresh offsetTime) ts s) :
    (ts.Nodup → ∃ l, Lists offsetTime s p l ∧ l.Perm ts) ∧ (¬ ts.Nodup → Circular s p) := by
  refine h.invariant_history (I := fun ts s => (ts.Nodup → ∃ l, Lists offsetTime s p l ∧ l.Perm ts) ∧
    (¬ ts.Nodup → Circular s p)) ?_ ?_
  · exact ⟨fun _ => ⟨[], lists_init p, List.Perm.refl _⟩, fun hnot => absurd List.nodup_nil hnot⟩
  · intro ts s t s' ⟨hlists, hcircular⟩ hret
    by_cases hts : ts.Nodup
    · obtain ⟨l, hl, hperm⟩ := hlists hts
      by_cases ht : t ∈ ts
      · refine ⟨fun hnodup => ?_, fun _ => hl.sortIn_again (hperm.mem_iff.mpr ht) hret⟩
        exact absurd rfl ((List.nodup_append.mp hnodup).2.2 t ht t (by simp))
      · obtain ⟨s'', k, hret', hlists', hk, -⟩ := hl.sortIn (fun hmem => ht (hperm.subset hmem))
        obtain rfl : s' = s'' := hret.unique hret'
        have hperm' : k.Perm (ts ++ [t]) :=
          hk.trans ((hperm.cons t).trans (List.perm_append_singleton t ts).symm)
        exact ⟨fun _ => ⟨k, hlists', hperm'⟩,
          fun hnot => absurd (hperm'.nodup_iff.mp hlists'.chain.nodup) hnot⟩
    · obtain ⟨fuel, hfuel⟩ := hret.exists
      refine ⟨fun hnodup => absurd (List.nodup_append.mp hnodup).1 hts, fun _ => ?_⟩
      exact (hcircular hts).sortIn hfuel

private theorem adds_of_nodup (p : π) (h : ts.Nodup) :
    ∃ s l, Adds p (fresh offsetTime) ts s ∧ Lists offsetTime s p l ∧ l.Perm ts := by
  induction ts using List.reverseRecOn with
  | nil => exact ⟨_, [], run_nil.mpr rfl, lists_init p, List.Perm.refl _⟩
  | append_singleton ts t ih =>
      obtain ⟨hts, -, hnew⟩ := List.nodup_append.mp h
      obtain ⟨s, l, hrun, hlists, hperm⟩ := ih hts
      have ht : t ∉ l := by
        intro hmem
        exact hnew t (hperm.subset hmem) t (by simp) rfl
      obtain ⟨s', _, hret, -⟩ := hlists.sortIn ht
      have hrun' : Adds p (fresh offsetTime) (ts ++ [t]) s' := run_snoc.mpr ⟨s, hrun, hret⟩
      obtain ⟨l', hlists', hperm'⟩ := hrun'.lists_or_circular.1 h
      exact ⟨s', l', hrun', hlists', hperm'⟩

private theorem Lists.push_group {k r : List θ} (h : Lists offsetTime s p (k ++ a :: r)) :
    ∃ s', Returns (fun fuel => Schedules.pushTriggers fuel
        (s.setSchedule p { s.schedule p with activeTrigger := some a }) p)
      (s', a :: r.filter fun t => offsetTime t = offsetTime a) := by
  have hsorted := (List.pairwise_append.mp h.sorted).2.1
  have hlists : Lists offsetTime (s.setSchedule p { s.schedule p with activeTrigger := some a }) p
      (k ++ a :: r) := by
    refine ⟨h.offset, ?_, h.sorted⟩
    simp only [setSchedule, Function.update_self]
    exact h.chain
  obtain ⟨g, m, b, hr, hret, -, hg, hm⟩ := hlists.push (by simp [setSchedule])
  have hlater : ∀ t ∈ m, offsetTime t ≠ offsetTime a := by
    rw [hr] at hsorted
    cases m with
    | nil => simp
    | cons c m =>
        have hac : offsetTime a < offsetTime c := hm c rfl
        have hcm := (List.pairwise_append.mp (List.pairwise_cons.mp hsorted).2).2.1
        intro t ht
        rcases List.mem_cons.mp ht with rfl | ht
        · exact hac.ne'
        · exact (hac.trans_le ((List.pairwise_cons.mp hcm).1 t ht)).ne'
  have hgroup : r.filter (fun t => offsetTime t = offsetTime a) = g := by
    rw [hr, List.filter_append, List.filter_eq_self.mpr (by simpa using hg),
      List.filter_eq_nil_iff.mpr (by simpa using hlater), List.append_nil]
  rw [hgroup]
  exact ⟨_, hret⟩

/-- The list of the triggers is finite, complete and sorted, and every active trigger is pushed with
the rest of its group, exactly when no trigger is added twice. -/
theorem adds_iff (p : π) (offsetTime : θ → Nat) (ts : List θ) :
    (∃ s l, Adds p (fresh offsetTime) ts s ∧ Chain s.next (s.schedule p).triggers l ∧ l.Nodup ∧
      (∀ t, t ∈ l ↔ t ∈ ts) ∧ (l.Pairwise fun a b => offsetTime a ≤ offsetTime b) ∧
      ∀ k a r, l = k ++ a :: r → ∃ s', Returns (fun fuel => Schedules.pushTriggers fuel
          (s.setSchedule p { s.schedule p with activeTrigger := some a }) p)
        (s', a :: r.filter fun t => offsetTime t = offsetTime a)) ↔
    ts.Nodup := by
  constructor
  · rintro ⟨s, l, hadds, hchain, -⟩
    by_contra hts
    exact (hadds.lists_or_circular.2 hts).not_chain hchain
  · intro hts
    obtain ⟨s, l, hadds, hlists, hperm⟩ : ∃ s l, Adds p (fresh offsetTime) ts s ∧
        Lists offsetTime s p l ∧ l.Perm ts := adds_of_nodup p hts
    refine ⟨s, l, hadds, hlists.chain, hlists.chain.nodup, fun t => hperm.mem_iff, hlists.sorted, ?_⟩
    rintro k a r rfl
    exact hlists.push_group

/-- A trigger added twice follows itself, and its pushes never end. -/
theorem add_twice :
    ∃ s : Schedules Unit Unit, Adds () (fresh fun _ => 0) [(), ()] s ∧
      (∀ l, ¬ Chain s.next (s.schedule ()).triggers l) ∧
      ∀ fuel, pushTriggers fuel
        (s.setSchedule () { s.schedule () with activeTrigger := some () }) () = .error .outOfFuel := by
  let s₁ : Schedules Unit Unit := ⟨fun _ => ⟨some (), none, 0, 0⟩, fun _ => ⟨0, none⟩⟩
  let s₂ : Schedules Unit Unit := ⟨fun _ => ⟨some (), none, 0, 0⟩, fun _ => ⟨0, some ()⟩⟩
  have hfirst : Returns (fun fuel => sortIn fuel (fresh fun _ => 0) () ()) s₁ :=
    ⟨0, fun _ _ => rfl⟩
  have hsecond : Returns (fun fuel => sortIn fuel s₁ () ()) s₂ := returns_of_add 1 fun _ => rfl
  have hadds : Adds () (fresh fun _ => 0) [(), ()] s₂ := (Run.start.next hfirst).next hsecond
  refine ⟨s₂, hadds, fun l => (hadds.lists_or_circular.2 (by simp)).not_chain, ?_⟩
  have hloop : ∀ fuel, pushFollowing (s₂.setSchedule ()
      { s₂.schedule () with activeTrigger := some () }) fuel () = .error .outOfFuel := by
    intro fuel
    induction fuel with
    | zero => rfl
    | succ fuel ih =>
        rw [pushFollowing]
        exact congrArg (· >>= fun x => .ok (x.1, () :: x.2)) ih
  intro fuel
  have hactive : ((s₂.setSchedule () { s₂.schedule () with activeTrigger := some () }).schedule
      ()).activeTrigger = some () := rfl
  rw [pushTriggers, hactive, deref_some, ok_bind, hloop fuel]
  rfl

end Schedules

end TaskingFramework
