import TaskingFramework.Clock.QueueOrder
import Mathlib.Order.Bounds.Defs

/-!
# The next start time

`getNextStartTime` starts its search at the event that the last search left in `nonePendingHead`. The
search is right as long as only due events stand before this event. An event that is hung behind the
tail becomes the cached one whenever the cache is empty, also when future events stand before it.
-/

set_option linter.unusedSectionVars false

namespace TaskingFramework

open Foundation

variable {ε : Type} [DecidableEq ε]

namespace Clock

variable {s s' : Clock ε} {q q' l r : List ε} {ledger : Ledger ε} {e c : ε} {t T : Nat}

/-- Whatever stands before the cached event is due. -/
def Trusted (s : Clock ε) (q : List ε) : Prop :=
  q.Pairwise fun a b => s.nonePendingHead = some b → s.nextActivation_ms a ≤ s.time

/-- The smallest future time of the queue, or 0 for a queue without future events. -/
def StartsNext (s : Clock ε) (q : List ε) (time : Nat) : Prop :=
  (time = 0 ∧ ∀ e ∈ q, s.nextActivation_ms e ≤ s.time) ∨
    IsLeast {t | s.time < t ∧ ∃ e ∈ q, s.nextActivation_ms e = t} time

private theorem trusted_of_none (h : s.nonePendingHead = none) : s.Trusted q := by
  apply List.pairwise_of_forall
  intro a b hb
  rw [h] at hb
  simp at hb

private theorem trusted_of_split (hnd : (l ++ r).Nodup) (hl : ∀ a ∈ l, s.nextActivation_ms a ≤ s.time)
    (hc : s.nonePendingHead = r.head?) : s.Trusted (l ++ r) := by
  obtain ⟨hndl, hndr, _⟩ := List.nodup_append.mp hnd
  apply List.pairwise_append.mpr
  refine ⟨List.Pairwise.imp_of_mem (fun ha _ _ _ => hl _ ha) hndl, ?_, fun a ha _ _ _ => hl a ha⟩
  cases r with
  | nil => exact List.Pairwise.nil
  | cons b r =>
      -- the cached event is the head of this part, and stands behind nothing in it
      obtain ⟨hb, hndr⟩ := List.nodup_cons.mp hndr
      have hne : ∀ d ∈ r, s.nonePendingHead ≠ some d := by
        intro d hd hcd
        have hbd : b = d := by simpa [hc] using hcd
        exact hb (hbd ▸ hd)
      apply List.pairwise_cons.mpr
      exact ⟨fun d hd hcd => absurd hcd (hne d hd),
        List.Pairwise.imp_of_mem (fun _ hd _ hcd => absurd hcd (hne _ hd)) hndr⟩

private theorem Trusted.before (h : s.Trusted (l ++ r)) (hc : s.nonePendingHead ≠ none)
    (hr : s.nonePendingHead = r.head?) : ∀ a ∈ l, s.nextActivation_ms a ≤ s.time := by
  intro a ha
  cases r with
  | nil => exact absurd hr hc
  | cons b r => exact (List.pairwise_append.mp h).2.2 a ha b List.mem_cons_self hr

private theorem Trusted.congr (h : s.Trusted q) (htime : s.time ≤ s'.time)
    (hact : ∀ a ∈ q, s'.nextActivation_ms a = s.nextActivation_ms a)
    (hc : s'.nonePendingHead = s.nonePendingHead) : s'.Trusted q := by
  refine List.Pairwise.imp_of_mem (fun {a b} ha _ hab hb => ?_) h
  rw [hact a ha]
  exact le_trans (hab (hc ▸ hb)) htime

private theorem Trusted.start_due (h : s.Trusted q) (he : e ∉ q) (ht : t ≤ s.time)
    (htime : s'.time = s.time)
    (hact : s'.nextActivation_ms = Function.update s.nextActivation_ms e t)
    (hc : s'.nonePendingHead = s.nonePendingHead) : s'.Trusted (e :: q) := by
  apply List.pairwise_cons.mpr
  constructor
  · intro b _ _
    rw [hact, Function.update_self, htime]
    exact ht
  · apply h.congr (le_of_eq htime.symm) _ hc
    intro a ha
    rw [hact]
    exact setNextActivation_of_mem he ha

private theorem Trusted.start_future (h : s.Trusted q) (hrefl : s.Reflects ledger q) (he : e ∉ q)
    (ht : s.time < t)
    (hfirst : s.nonePendingHead = none → (∀ a ∈ q, s.nextActivation_ms a ≤ t) →
      ∀ a ∈ q, s.nextActivation_ms a ≤ s.time)
    (hnd : (insertAt (Function.update s.nextActivation_ms e t) t e q).Nodup)
    (htime : s'.time = s.time)
    (hact : s'.nextActivation_ms = Function.update s.nextActivation_ms e t)
    (hc : s'.nonePendingHead = (s.setNextActivation e t).pendingAfterInsert q e) :
    s'.Trusted (insertAt (Function.update s.nextActivation_ms e t) t e q) := by
  have hsame : ∀ a ∈ q, Function.update s.nextActivation_ms e t a = s.nextActivation_ms a :=
    fun a ha => setNextActivation_of_mem he ha
  have hsplit : q = upTo (Function.update s.nextActivation_ms e t) t q ++
      behind (Function.update s.nextActivation_ms e t) t q :=
    ((hrefl.toRepresents.setNextActivation he t).ordered).split (le_of_lt ht)
  have hup : ∀ a ∈ upTo (Function.update s.nextActivation_ms e t) t q,
      a ∈ q ∧ s.nextActivation_ms a ≤ t := by
    intro a ha
    obtain ⟨haq, hat⟩ := mem_upTo.mp ha
    exact ⟨haq, hsame a haq ▸ hat⟩
  have hbehind : ∀ a ∈ behind (Function.update s.nextActivation_ms e t) t q,
      a ∈ q ∧ t < s.nextActivation_ms a := by
    intro a ha
    obtain ⟨haq, hat⟩ := mem_behind.mp ha
    exact ⟨haq, hsame a haq ▸ hat⟩
  simp only [pendingAfterInsert, setNextActivation_nextActivation_ms, Function.update_self,
    setNextActivation_nonePendingHead] at hc
  unfold insertAt at hnd ⊢
  generalize upTo (Function.update s.nextActivation_ms e t) t q = u at *
  generalize behind (Function.update s.nextActivation_ms e t) t q = b at *
  -- with the new event as the cached one only the events up to its time stand before it
  have hself : (∀ a ∈ u, s.nextActivation_ms a ≤ s.time) → s'.nonePendingHead = some e →
      s'.Trusted (u ++ e :: b) := by
    intro hdue hce
    apply trusted_of_split hnd _ hce
    intro a ha
    rw [hact, hsame a (hup a ha).1, htime]
    exact hdue a ha
  by_cases hq : q = []
  · rw [if_pos hq] at hc
    apply trusted_of_none
    cases hcache : s.nonePendingHead with
    | none => rw [hc, hcache]
    | some c => exact absurd (hrefl.cached c hcache) (by simp [hq])
  rw [if_neg hq] at hc
  by_cases hu : u = []
  · rw [if_pos hu] at hc
    by_cases hcache : s.nonePendingHead = none
    · exact trusted_of_none (by simpa [hcache] using hc)
    · exact hself (by simp [hu]) (by simpa [hcache] using hc)
  rw [if_neg hu] at hc
  by_cases hhead : b.head? = s.nonePendingHead
  · rw [if_pos hhead] at hc
    apply hself _ hc
    by_cases hcache : s.nonePendingHead = none
    · have hb : b = [] := List.head?_eq_none_iff.mp (hhead.trans hcache)
      have hqu : q = u := by rw [hsplit, hb, List.append_nil]
      intro a ha
      apply hfirst hcache _ a (hup a ha).1
      intro c hcq
      exact (hup c (hqu ▸ hcq)).2
    · exact Trusted.before (hsplit ▸ h) hcache hhead.symm
  · rw [if_neg hhead] at hc
    cases hcache : s.nonePendingHead with
    | none => exact trusted_of_none (hc.trans hcache)
    | some c =>
        -- the cached event stands in front of the new one
        have hcq : c ∈ q := hrefl.cached c hcache
        have hcb : c ∉ b := by
          intro hcb
          obtain ⟨l, r, hlr⟩ := List.append_of_mem hcb
          cases l with
          | nil => exact hhead (by rw [hlr, hcache]; rfl)
          | cons d l =>
              have hdb : d ∈ b := by simp [hlr]
              have hpair : (u ++ d :: (l ++ c :: r)).Pairwise fun a b =>
                  s.nonePendingHead = some b → s.nextActivation_ms a ≤ s.time := by
                rw [hsplit, hlr] at h
                exact h
              have hdue := (List.pairwise_cons.mp (List.pairwise_append.mp hpair).2.1).1 c
                (by simp) hcache
              have := (hbehind d hdb).2
              omega
        have hne : ∀ d ∈ e :: b, s'.nonePendingHead ≠ some d := by
          intro d hd hcd
          rw [hc, hcache] at hcd
          have hdc : c = d := Option.some.inj hcd
          rcases List.mem_cons.mp hd with hd | hd
          · exact he (hd ▸ hdc ▸ hcq)
          · exact hcb (hdc ▸ hd)
        have hu' : s'.Trusted u := by
          have hsub : s.Trusted u := List.Pairwise.sublist (hsplit ▸ List.sublist_append_left u b) h
          apply hsub.congr (le_of_eq htime.symm) _ hc
          intro a ha
          rw [hact]
          exact hsame a (hup a ha).1
        apply List.pairwise_append.mpr
        refine ⟨hu', ?_, fun a _ d hd hcd => absurd hcd (hne d hd)⟩
        apply List.pairwise_cons.mpr
        have hb := List.pairwise_of_forall (R := fun _ _ : ε => True) (l := b) fun _ _ => trivial
        exact ⟨fun d hd hcd => absurd hcd (hne d (List.mem_cons_of_mem e hd)),
          hb.imp_of_mem fun _ hd _ hcd => absurd hcd (hne _ (List.mem_cons_of_mem e hd))⟩

private theorem Trusted.remove (h : s.Trusted q) (hrefl : s.Reflects ledger q)
    (htime : s'.time = s.time) (hact : s'.nextActivation_ms = s.nextActivation_ms)
    (hc : s'.nonePendingHead = s.pendingAfterRemove e) : s'.Trusted (q.erase e) := by
  by_cases hcache : s.nonePendingHead = some e
  · -- the event behind the removed one becomes the cached event
    obtain ⟨l, r, _, rfl, herase⟩ := List.exists_erase_eq (hrefl.cached e hcache)
    have hnd : (l ++ r).Nodup := herase ▸ hrefl.nodup.erase e
    rw [herase]
    apply trusted_of_split hnd
    · intro a ha
      rw [htime, hact]
      exact h.before (by simp [hcache]) hcache a ha
    · rw [hc, pendingAfterRemove, if_pos hcache]
      exact Chain.next_eq hrefl.chain
  · have hsub : s.Trusted (q.erase e) := List.Pairwise.sublist List.erase_sublist h
    apply hsub.congr (le_of_eq htime.symm) (fun a _ => by rw [hact])
    rw [hc, pendingAfterRemove, if_neg hcache]

private theorem Trusted.startAt (h : s.Trusted q) (hrefl : s.Reflects ledger q) (hnow : s.time < 2 ^ 63)
    (he : e ∉ ledger.events) (ht : t < 2 ^ 63)
    (hfirst : s.time < t → s.nonePendingHead = none → (∀ a ∈ q, s.nextActivation_ms a ≤ t) →
      ∀ a ∈ q, s.nextActivation_ms a ≤ s.time) :
    ∃ s' wake q', Returns (fun fuel => Clock.startAt fuel s e t) (s', wake) ∧
      Chain s'.next s'.queueHead q' ∧ s'.Trusted q' := by
  have heq := hrefl.notMem he
  by_cases hle : t ≤ s.time
  · obtain ⟨s', hret, hrep, htime, hact, _, hcache⟩ := startAt_due hrefl.toRepresents heq (by omega) hle
    exact ⟨s', _, _, hret, hrep.chain, h.start_due heq hle htime hact hcache⟩
  · have hlt : s.time < t := lt_of_not_ge hle
    obtain ⟨s', hret, hrep, htime, hact, _, hcache⟩ :=
      startAt_future hrefl.toRepresents heq (by omega) hlt
    exact ⟨s', _, _, hret, hrep.chain,
      h.start_future hrefl heq hlt (hfirst hlt) hrep.nodup htime hact hcache⟩

private theorem Trusted.startIn (h : s.Trusted q) (hrefl : s.Reflects ledger q)
    (he : e ∉ ledger.events) (ht : s.time + t < 2 ^ 63)
    (hfirst : s.time < s.time + t → s.nonePendingHead = none →
      (∀ a ∈ q, s.nextActivation_ms a ≤ s.time + t) → ∀ a ∈ q, s.nextActivation_ms a ≤ s.time) :
    ∃ s' wake q', Returns (fun fuel => Clock.startIn fuel s e t) (s', wake) ∧
      Chain s'.next s'.queueHead q' ∧ s'.Trusted q' := by
  have heq := hrefl.notMem he
  by_cases ht0 : t = 0
  · subst t
    obtain ⟨s', hret, hrep, htime, hact, _, hcache⟩ := startIn_zero hrefl.toRepresents heq
    exact ⟨s', _, _, hret, hrep.chain, h.start_due heq le_rfl htime hact hcache⟩
  · obtain ⟨s', wake, q', hret, hrest⟩ := h.startAt hrefl (by omega) he ht hfirst
    exact ⟨s', wake, q', hret.congr fun fuel => (startIn_eq fuel ht0 (by omega)).symm, hrest⟩

private theorem Trusted.readFirstPending (h : s.Trusted q) (hrefl : s.Reflects ledger q) :
    ∃ s' event q', Returns (fun fuel => Clock.readFirstPending fuel s) (s', event) ∧
      Chain s'.next s'.queueHead q' ∧ s'.Trusted q' := by
  cases q with
  | nil => exact ⟨s, none, [], readFirstPending_none hrefl.toRepresents (by simp), hrefl.chain, h⟩
  | cons a q =>
      by_cases ha : s.nextActivation_ms a ≤ s.time
      · obtain ⟨s', hret, hrep, htime, hact, _, hcache⟩ :=
          readFirstPending_due hrefl.toRepresents ha
        have htr := h.remove hrefl htime hact hcache
        rw [List.erase_cons_head] at htr
        exact ⟨s', some a, q, hret, hrep.chain, htr⟩
      · have hret := readFirstPending_none hrefl.toRepresents (by simpa using ha)
        exact ⟨s, none, a :: q, hret, hrefl.chain, h⟩

/-- The search from a trusted cache finds the first future event of the whole queue. -/
theorem Trusted.getNextStartTime (h : s.Trusted q) (hrefl : s.Reflects ledger q) :
    ∃ s' time, Returns (fun fuel => Clock.getNextStartTime fuel s) (s', time) ∧
      Chain s'.next s'.queueHead q ∧ s'.Trusted q ∧ s.StartsNext q time := by
  obtain ⟨l, r, rfl, hcache⟩ := hrefl.split_cache
  obtain ⟨found, hfound, hret⟩ := getNextStartTime_returns hrefl.toRepresents hcache
  have hl : ∀ a ∈ l, s.nextActivation_ms a ≤ s.time := by
    rcases hcache with ⟨_, rfl⟩ | ⟨hsome, hhead⟩
    · simp
    · exact h.before hsome hhead
  refine ⟨_, _, hret, hrefl.chain, ?_⟩
  cases found with
  | none =>
      refine ⟨trusted_of_none rfl, Or.inl ⟨rfl, ?_⟩⟩
      intro a ha
      rcases List.mem_append.mp ha with ha | ha
      · exact hl a ha
      · simpa using List.find?_eq_none.mp hfound.symm a ha
  | some c =>
      obtain ⟨hc, pre, post, rfl, hpre⟩ := List.find?_eq_some_iff_append.mp hfound.symm
      have hc : s.time < s.nextActivation_ms c := by simpa using hc
      have hbefore : ∀ a ∈ l ++ pre, s.nextActivation_ms a ≤ s.time := by
        intro a ha
        rcases List.mem_append.mp ha with ha | ha
        · exact hl a ha
        · simpa using hpre a ha
      have hassoc : l ++ (pre ++ c :: post) = (l ++ pre) ++ c :: post := by simp
      have hord := hrefl.ordered
      have hnd := hrefl.nodup
      rw [hassoc] at hord hnd ⊢
      refine ⟨trusted_of_split hnd hbefore rfl, Or.inr ⟨⟨hc, c, by simp, rfl⟩, ?_⟩⟩
      rintro _ ⟨hlt, a, ha, rfl⟩
      have hlast : DueOrdered s.time s.nextActivation_ms (c :: post) :=
        (List.pairwise_append.mp hord).2.1
      rcases List.mem_append.mp ha with ha | ha
      · exact absurd (hbefore a ha) (not_le_of_gt hlt)
      · rcases List.mem_cons.mp ha with rfl | ha
        · exact le_rfl
        · exact (dueOrdered_cons.mp hlast).1 a ha hc

end Clock

namespace Booked

open Clock

variable {m m' : Booked ε} {q : List ε} {c : ClockCall ε} {a : ClockAnswer ε} {t₀ : Nat}

/-- A start at this time hangs the event behind another future event while the cache is empty. -/
def HangsBehind (m : Booked ε) (time : Nat) : Prop :=
  m.clock.nonePendingHead = none ∧ m.clock.time < time ∧ (∀ p ∈ m.ledger, p.2 ≤ time) ∧
    ∃ p ∈ m.ledger, m.clock.time < p.2

def Misleads (m : Booked ε) : ClockCall ε → Prop
  | .startAt _ time => m.HangsBehind time
  | .startIn _ time => m.HangsBehind (m.clock.time + time)
  | _ => False

instance (m : Booked ε) : DecidablePred m.HangsBehind := fun time =>
  inferInstanceAs (Decidable (m.clock.nonePendingHead = none ∧ m.clock.time < time ∧
    (∀ p ∈ m.ledger, p.2 ≤ time) ∧ ∃ p ∈ m.ledger, m.clock.time < p.2))

instance (m : Booked ε) : DecidablePred m.Misleads
  | .startAt _ time => inferInstanceAs (Decidable (m.HangsBehind time))
  | .startIn _ time => inferInstanceAs (Decidable (m.HangsBehind (m.clock.time + time)))
  | .dequeue _ | .dequeueAll | .readFirstPending | .getNextStartTime | .advance _ =>
      inferInstanceAs (Decidable False)

private theorem not_hangsBehind (h : m.clock.Reflects m.ledger q) {t : Nat} (hm : ¬ m.HangsBehind t)
    (ht : m.clock.time < t) (hcache : m.clock.nonePendingHead = none)
    (hle : ∀ e ∈ q, m.clock.nextActivation_ms e ≤ t) :
    ∀ e ∈ q, m.clock.nextActivation_ms e ≤ m.clock.time := by
  by_contra hcon
  push Not at hcon
  obtain ⟨e, he, hlt⟩ := hcon
  apply hm
  refine ⟨hcache, ht, ?_, ?_⟩
  · intro p hp
    rw [← h.times p hp]
    exact hle p.1 (h.visits.symm.subset (List.mem_map_of_mem hp))
  · obtain ⟨p, hp, rfl⟩ := List.mem_map.mp (h.visits.subset he)
    exact ⟨p, hp, h.times p hp ▸ hlt⟩

theorem call_trusted (h : m.Reflects q) (htr : m.clock.Trusted q) (hc : m.Admissible c)
    (hm : ¬ m.Misleads c) :
    ∃ s' a q', Returns (fun fuel => m.clock.call fuel c) (s', a) ∧
      Chain s'.next s'.queueHead q' ∧ s'.Trusted q' := by
  obtain ⟨hnow, h⟩ := h
  cases c with
  | startAt e t =>
      obtain ⟨s', wake, q', hret, hrest⟩ :=
        htr.startAt h hnow hc.1 hc.2 (not_hangsBehind h hm)
      exact ⟨s', _, q', hret.bind (returns_ok _), hrest⟩
  | startIn e t =>
      obtain ⟨s', wake, q', hret, hrest⟩ := htr.startIn h hc.1 hc.2 (not_hangsBehind h hm)
      exact ⟨s', _, q', hret.bind (returns_ok _), hrest⟩
  | dequeue e =>
      obtain ⟨s', hret, hrep, htime, hact, _, hcache⟩ := dequeue_returns h.toRepresents e
      exact ⟨s', _, _, hret.bind (returns_ok _), hrep.chain, htr.remove h htime hact hcache⟩
  | dequeueAll =>
      obtain ⟨s', hret, hrep, _, _, hcache⟩ := dequeueAll_represents h.toRepresents
      exact ⟨s', _, [], hret.bind (returns_ok _), hrep.chain, List.Pairwise.nil⟩
  | readFirstPending =>
      obtain ⟨s', event, q', hret, hrest⟩ := htr.readFirstPending h
      exact ⟨s', _, q', hret.bind (returns_ok _), hrest⟩
  | getNextStartTime =>
      obtain ⟨s', time, hret, hchain, htr', _⟩ := htr.getNextStartTime h
      exact ⟨s', _, q, hret.bind (returns_ok _), hchain, htr'⟩
  | advance span =>
      exact ⟨_, _, q, returns_ok _, h.chain,
        htr.congr (Nat.le_add_right _ _) (fun _ _ => rfl) rfl⟩

/-- In every run without misleading starts `getNextStartTime` returns, in every state, the smallest
future time of the queued events, or 0 when there is none. -/
theorem run_startsNext (ht : t₀ < 2 ^ 63) {l : List (ClockCall ε × ClockAnswer ε)}
    (h : Run (fun m i m' => Step m i m' ∧ ¬ m.Misleads i.1) (opened t₀) l m) :
    ∃ q, Chain m.clock.next m.clock.queueHead q ∧
      ∃ time m', m.Step (.getNextStartTime, .time time) m' ∧ m.clock.StartsNext q time := by
  have hinv : ∃ q, m.Reflects q ∧ m.clock.Trusted q := by
    apply h.invariant (I := fun m : Booked ε => ∃ q, m.Reflects q ∧ m.clock.Trusted q)
    · exact ⟨[], reflects_opened ht, List.Pairwise.nil⟩
    · intro m ⟨c, a⟩ m' ⟨q, hq, htr⟩ ⟨hstep, hm⟩
      obtain ⟨a', m₁, q', hstep', hq'⟩ := exists_step hq hstep.1
      obtain ⟨_, rfl⟩ := Calls.unique hstep hstep'
      obtain ⟨s', b, q₁, hret, hchain, htr'⟩ := call_trusted hq htr hstep.1 hm
      obtain ⟨_, rfl⟩ := Calls.unique hstep (step_of_call hstep.1 hret)
      exact ⟨q', hq', Chain.unique hchain hq'.2.chain ▸ htr'⟩
  obtain ⟨q, hq, htr⟩ := hinv
  obtain ⟨s', time, hret, _, _, hnext⟩ := htr.getNextStartTime hq.2
  exact ⟨q, hq.2.chain, time, _, step_of_call trivial (hret.bind (returns_ok _)), hnext⟩

/-- A search between the two starts fills the cache. -/
theorem run_startsNext_two : ∃ (m : Booked Nat) (q : List Nat),
    Run (fun m i m' => Step m i m' ∧ ¬ m.Misleads i.1) (opened 0)
      [(.startAt 0 10, .wake ⟨false, some 10⟩), (.getNextStartTime, .time 10),
        (.startAt 1 20, .wake ⟨false, none⟩)] m ∧
    Chain m.clock.next m.clock.queueHead q ∧
      ∃ time m', m.Step (.getNextStartTime, .time time) m' ∧ m.clock.StartsNext q time := by
  let s₁ := reached (empty 0) (enqueue 1 0 ((empty 0).setNextActivation 0 10) 0)
  let s₂ := reached s₁ (s₁.getNextStartTime 2)
  let s₃ := reached s₂ (enqueue 2 0 (s₂.setNextActivation 1 20) 1)
  have h₁ : (opened 0 : Booked Nat).Step (.startAt 0 10, .wake ⟨false, some 10⟩) ⟨s₁, [(0, 10)]⟩ :=
    step_of_call (by decide) (returns_of_add 1 fun fuel => by
      rw [call_startAt _ rfl (by decide) (by decide)]
      rfl)
  have h₂ : (⟨s₁, [(0, 10)]⟩ : Booked Nat).Step (.getNextStartTime, .time 10) ⟨s₂, [(0, 10)]⟩ :=
    step_of_call (by decide) (returns_of_add 2 fun fuel => rfl)
  have h₃ : (⟨s₂, [(0, 10)]⟩ : Booked Nat).Step (.startAt 1 20, .wake ⟨false, none⟩)
      ⟨s₃, [(0, 10), (1, 20)]⟩ :=
    step_of_call (by decide) (returns_of_add 2 fun fuel => by
      rw [call_startAt _ rfl (by decide) (by decide)]
      rfl)
  have hrun : Run (fun m i m' => Step m i m' ∧ ¬ m.Misleads i.1) (opened 0) _ _ :=
    ((Run.start.next ⟨h₁, by decide⟩).next ⟨h₂, by decide⟩).next ⟨h₃, by decide⟩
  obtain ⟨q, hq⟩ := run_startsNext (by decide) hrun
  exact ⟨_, q, hrun, hq⟩

/-- Without it the second event becomes the cached one, and the first is skipped. -/
theorem nextStart_skips_first : ∃ m m' : Booked Nat,
    Run Step (opened 0) [(.startAt 0 10, .wake ⟨false, some 10⟩),
      (.startAt 1 20, .wake ⟨false, none⟩)] m ∧
    Chain m.clock.next m.clock.queueHead [0, 1] ∧
    m.Step (.getNextStartTime, .time 20) m' ∧
    m.clock.StartsNext [0, 1] 10 ∧ ¬ m.clock.StartsNext [0, 1] 20 := by
  let s₁ := reached (empty 0) (enqueue 1 0 ((empty 0).setNextActivation 0 10) 0)
  let s₂ := reached s₁ (enqueue 2 0 (s₁.setNextActivation 1 20) 1)
  let s₃ := reached s₂ (s₂.getNextStartTime 2)
  have h₁ : (opened 0 : Booked Nat).Step (.startAt 0 10, .wake ⟨false, some 10⟩) ⟨s₁, [(0, 10)]⟩ :=
    step_of_call (by decide) (returns_of_add 1 fun fuel => by
      rw [call_startAt _ rfl (by decide) (by decide)]
      rfl)
  have h₂ : (⟨s₁, [(0, 10)]⟩ : Booked Nat).Step (.startAt 1 20, .wake ⟨false, none⟩)
      ⟨s₂, [(0, 10), (1, 20)]⟩ :=
    step_of_call (by decide) (returns_of_add 2 fun fuel => by
      rw [call_startAt _ rfl (by decide) (by decide)]
      rfl)
  have h₃ : (⟨s₂, [(0, 10), (1, 20)]⟩ : Booked Nat).Step (.getNextStartTime, .time 20)
      ⟨s₃, [(0, 10), (1, 20)]⟩ :=
    step_of_call (by decide) (returns_of_add 2 fun fuel => rfl)
  have hten : s₂.StartsNext [0, 1] 10 := by
    refine Or.inr ⟨⟨by decide, 0, by decide, rfl⟩, ?_⟩
    rintro t ⟨_, e, he, rfl⟩
    rcases List.mem_pair.mp he with rfl | rfl
    · decide
    · decide
  have htwenty : ¬ s₂.StartsNext [0, 1] 20 := by
    rintro (⟨h, _⟩ | ⟨_, h⟩)
    · exact absurd h (by decide)
    · exact absurd (h ⟨by decide, 0, by decide, rfl⟩) (by decide)
  exact ⟨_, _, (Run.start.next h₁).next h₂, ⟨rfl, rfl, rfl⟩, h₃, hten, htwenty⟩

end Booked

end TaskingFramework
