import TaskingFramework.Event.PeriodicSchedule
import TaskingFramework.Foundation.Chain

/-!
# The triggers of a periodic schedule

The list of the triggers stays sorted by their offsets, and each trigger is inserted once. The triggers
that are pushed together are those with the same offset that follow the active one.
-/

set_option linter.unusedSectionVars false

namespace TaskingFramework

open Foundation

namespace Schedules

variable {π θ : Type} [DecidableEq π] [DecidableEq θ] {s : Schedules π θ} {p : π} {t a : θ}
  {offsetTime : θ → Nat} {l k r : List θ}

def next (s : Schedules π θ) (t : θ) : Option θ := (s.trigger t).next

/-- The schedule `p` lists the triggers of `l`, in the order of their offsets. -/
structure Lists (offsetTime : θ → Nat) (s : Schedules π θ) (p : π) (l : List θ) : Prop where
  offset : ∀ t, (s.trigger t).offsetTime = offsetTime t
  chain : Chain s.next (s.schedule p).triggers l
  sorted : l.Pairwise fun a b => offsetTime a ≤ offsetTime b

theorem lists_init (p : π) :
    Lists offsetTime ⟨fun _ => .init, fun t => ⟨offsetTime t, none⟩⟩ p [] :=
  ⟨fun _ => rfl, rfl, List.Pairwise.nil⟩

theorem next_setNext (v : Option θ) : (s.setNext t v).next = Function.update s.next t v := by
  funext f
  by_cases hf : f = t
  · subst hf
    simp [next, setNext]
  · simp [next, setNext, hf]

theorem offsetTime_setNext (v : Option θ) (f : θ) :
    ((s.setNext t v).trigger f).offsetTime = (s.trigger f).offsetTime := by
  by_cases hf : f = t
  · subst hf
    simp [setNext]
  · simp [setNext, hf]

/-- The loop of `sortIn` ends in front of a trigger whose offset is not smaller. -/
theorem searchPrev_returns {q : Option θ} {offset : Nat} (h : Chain s.next q (l ++ a :: r))
    (hle : (s.trigger a).offsetTime ≤ offset) :
    ∃ k b m, l ++ a :: r = k ++ b :: m ∧
      Returns (fun fuel => searchPrev s offset fuel a) b ∧ (s.trigger b).offsetTime ≤ offset ∧
      ∀ c ∈ m.head?, offset ≤ (s.trigger c).offsetTime := by
  induction r generalizing l a with
  | nil =>
      have hnext : (s.trigger a).next = none := h.next_eq
      refine ⟨l, a, [], rfl, ?_, hle, by simp⟩
      apply (returns_ok a).step
      intro fuel
      rw [searchPrev, hnext]
  | cons c r ih =>
      have hnext : (s.trigger a).next = some c := h.next_eq
      by_cases hlt : (s.trigger c).offsetTime < offset
      · have hchain : Chain s.next q ((l ++ [a]) ++ c :: r) := by
          rw [List.append_assoc]
          exact h
        obtain ⟨k, b, m, hsplit, hret, hb, hm⟩ := ih hchain hlt.le
        refine ⟨k, b, m, ?_, ?_, hb, hm⟩
        · rw [← hsplit, List.append_assoc]
          rfl
        · apply hret.step
          intro fuel
          rw [searchPrev, hnext]
          exact if_pos hlt
      · refine ⟨l, a, c :: r, rfl, ?_, hle, ?_⟩
        · apply (returns_ok a).step
          intro fuel
          rw [searchPrev, hnext]
          exact if_neg hlt
        · intro d hd
          rw [← Option.some.inj hd]
          exact le_of_not_gt hlt

private theorem sorted_insert (h : (k ++ a :: r).Pairwise fun a b => offsetTime a ≤ offsetTime b)
    (ha : offsetTime a ≤ offsetTime t) (hr : ∀ c ∈ r.head?, offsetTime t ≤ offsetTime c) :
    (k ++ a :: t :: r).Pairwise fun a b => offsetTime a ≤ offsetTime b := by
  obtain ⟨hk, har, hkr⟩ := List.pairwise_append.mp h
  obtain ⟨har, hr'⟩ := List.pairwise_cons.mp har
  have htr : ∀ c ∈ r, offsetTime t ≤ offsetTime c := by
    cases r with
    | nil => simp
    | cons c r =>
        have htc : offsetTime t ≤ offsetTime c := hr c rfl
        intro d hd
        rcases List.mem_cons.mp hd with rfl | hd
        · exact htc
        · exact htc.trans ((List.pairwise_cons.mp hr').1 d hd)
  apply List.pairwise_append.mpr
  refine ⟨hk, ?_, ?_⟩
  · apply List.pairwise_cons.mpr
    refine ⟨?_, List.pairwise_cons.mpr ⟨htr, hr'⟩⟩
    intro c hc
    rcases List.mem_cons.mp hc with rfl | hc
    · exact ha
    · exact har c hc
  · intro x hx c hc
    have hxa : offsetTime x ≤ offsetTime a := hkr x hx a List.mem_cons_self
    rcases List.mem_cons.mp hc with rfl | hc
    · exact hxa
    · rcases List.mem_cons.mp hc with rfl | hc
      · exact hxa.trans ha
      · exact hkr x hx c (List.mem_cons_of_mem a hc)

/-- A new trigger joins the list, and the schedule does not start to play. -/
theorem Lists.sortIn (h : Lists offsetTime s p l) (ht : t ∉ l) :
    ∃ s' k, Returns (fun fuel => Schedules.sortIn fuel s p t) s' ∧ Lists offsetTime s' p k ∧
      k.Perm (t :: l) ∧ (s'.schedule p).activeTrigger = (s.schedule p).activeTrigger := by
  cases l with
  | nil =>
      have hnone : (s.schedule p).triggers = none := h.chain
      let s' := (s.setSchedule p { s.schedule p with triggers := some t }).setNext t none
      have hself : s'.schedule p = { s.schedule p with triggers := some t } := by
        simp [s', setNext, setSchedule]
      refine ⟨s', [t], ?_, ⟨?_, ?_, List.pairwise_singleton _ _⟩, List.Perm.refl _, ?_⟩
      · simp only [Schedules.sortIn, hnone]
        exact returns_ok _
      · intro f
        rw [offsetTime_setNext]
        exact h.offset f
      · rw [hself, next_setNext]
        refine ⟨rfl, ?_⟩
        rw [Function.update_self]
        rfl
      · rw [hself]
  | cons a l =>
      have hsome : (s.schedule p).triggers = some a := h.chain.1
      obtain ⟨hal, hsorted⟩ := List.pairwise_cons.mp h.sorted
      by_cases hlt : (s.trigger t).offsetTime < (s.trigger a).offsetTime
      · let s' := (s.setNext t (some a)).setSchedule p { s.schedule p with triggers := some t }
        have hself : s'.schedule p = { s.schedule p with triggers := some t } := by
          simp [s', setNext, setSchedule]
        have hta : offsetTime t ≤ offsetTime a := by
          rw [← h.offset t, ← h.offset a]
          exact hlt.le
        refine ⟨s', t :: a :: l, ?_, ⟨?_, ?_, ?_⟩, List.Perm.refl _, ?_⟩
        · simp only [Schedules.sortIn, hsome, if_pos hlt]
          exact returns_ok _
        · intro f
          rw [show s'.trigger f = (s.setNext t (some a)).trigger f from rfl, offsetTime_setNext]
          exact h.offset f
        · rw [hself, show s'.next = (s.setNext t (some a)).next from rfl, next_setNext, ← hsome]
          exact h.chain.push ht
        · apply List.pairwise_cons.mpr
          refine ⟨?_, h.sorted⟩
          intro c hc
          rcases List.mem_cons.mp hc with rfl | hc
          · exact hta
          · exact hta.trans (hal c hc)
        · rw [hself]
      · obtain ⟨k, b, m, hsplit, hret, hb, hm⟩ :=
          searchPrev_returns (l := []) h.chain (le_of_not_gt hlt)
        let s' := (s.setNext t (s.next b)).setNext b (some t)
        have hbm : k ++ b :: m = a :: l := hsplit.symm
        refine ⟨s', k ++ b :: t :: m, ?_, ⟨?_, ?_, ?_⟩, ?_, rfl⟩
        · simp only [Schedules.sortIn, hsome, if_neg hlt]
          exact hret.bind (returns_ok _)
        · intro f
          rw [offsetTime_setNext, offsetTime_setNext]
          exact h.offset f
        · rw [next_setNext, next_setNext]
          apply Chain.insert
          · rw [hbm]
            exact h.chain
          · rw [hbm]
            exact ht
        · apply sorted_insert
          · rw [hbm]
            exact h.sorted
          · rw [← h.offset b, ← h.offset t]
            exact hb
          · intro c hc
            rw [← h.offset c, ← h.offset t]
            exact hm c hc
        · rw [← hbm]
          have hmid : (k ++ b :: t :: m).Perm (t :: ((k ++ [b]) ++ m)) := by
            rw [show k ++ b :: t :: m = (k ++ [b]) ++ t :: m by simp]
            exact List.perm_middle
          rw [List.append_assoc] at hmid
          exact hmid

private theorem pushFollowing_returns {q : Option θ} (h : Chain s.next q (l ++ a :: r))
    (hoffset : ∀ t, (s.trigger t).offsetTime = offsetTime t)
    (hsorted : (a :: r).Pairwise fun a b => offsetTime a ≤ offsetTime b) :
    ∃ g m b, r = g ++ m ∧ Returns (fun fuel => pushFollowing s fuel a) (b, g) ∧
      s.next b = m.head? ∧ (∀ t ∈ g, offsetTime t = offsetTime a) ∧
      ∀ c ∈ m.head?, offsetTime a < offsetTime c := by
  induction r generalizing l a with
  | nil =>
      have hnext : (s.trigger a).next = none := h.next_eq
      refine ⟨[], [], a, rfl, ?_, hnext, by simp, by simp⟩
      apply (returns_ok _).step
      intro fuel
      rw [pushFollowing, hnext]
  | cons c r ih =>
      have hnext : (s.trigger a).next = some c := h.next_eq
      obtain ⟨hac, hrest⟩ := List.pairwise_cons.mp hsorted
      by_cases heq : (s.trigger a).offsetTime = (s.trigger c).offsetTime
      · have hchain : Chain s.next q ((l ++ [a]) ++ c :: r) := by
          rw [List.append_assoc]
          exact h
        have hca : offsetTime c = offsetTime a := by
          rw [← hoffset c, ← hoffset a]
          exact heq.symm
        obtain ⟨g, m, b, hr, hret, hb, hg, hm⟩ := ih hchain hrest
        refine ⟨c :: g, m, b, by rw [hr]; rfl, ?_, hb, ?_, ?_⟩
        · have hloop : Returns (fun fuel => pushFollowing s fuel c >>= fun x =>
              .ok (x.1, c :: x.2)) (b, c :: g) := hret.bind (returns_ok _)
          apply hloop.step
          intro fuel
          rw [pushFollowing, hnext]
          exact if_pos heq
        · intro t ht
          rcases List.mem_cons.mp ht with rfl | ht
          · exact hca
          · exact (hg t ht).trans hca
        · rw [← hca]
          exact hm
      · refine ⟨[], c :: r, a, rfl, ?_, hnext, by simp, ?_⟩
        · apply (returns_ok _).step
          intro fuel
          rw [pushFollowing, hnext]
          exact if_neg heq
        · intro d hd
          rw [← Option.some.inj hd]
          rw [hoffset a, hoffset c] at heq
          exact lt_of_le_of_ne (hac c List.mem_cons_self) heq

/-- The active trigger and those behind it with its offset are pushed. -/
theorem Lists.push (h : Lists offsetTime s p (k ++ a :: r))
    (hactive : (s.schedule p).activeTrigger = some a) :
    ∃ g m b, r = g ++ m ∧ Returns (fun fuel => s.pushTriggers fuel p)
        (s.setSchedule p { s.schedule p with activeTrigger := some b }, a :: g) ∧
      s.next b = m.head? ∧ (∀ t ∈ g, offsetTime t = offsetTime a) ∧
      ∀ c ∈ m.head?, offsetTime a < offsetTime c := by
  obtain ⟨g, m, b, hbehind, hret, hb, hg, hm⟩ :=
    pushFollowing_returns h.chain h.offset (List.pairwise_append.mp h.sorted).2.1
  refine ⟨g, m, b, hbehind, ?_, hb, hg, hm⟩
  simp only [pushTriggers, hactive, deref_some, ok_bind]
  exact hret.bind (returns_ok _)

end Schedules

end TaskingFramework
