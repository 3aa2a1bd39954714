import TaskingFramework.Clock.Enqueue

/-!
# Removal from the clock queue

What `dequeue`, `readFirstPending` and `dequeueAll` do to the list of queued events.
-/

set_option linter.unusedSectionVars false

namespace TaskingFramework.Clock

open Foundation

variable {ε : Type} [DecidableEq ε] {s s' : Clock ε} {q l r : List ε} {e f n : ε}

private theorem Linked.previous_remove (h : s.Linked (l ++ e :: r)) (block : List ε)
    (hblock : ∀ f ∈ r, s.time < s.nextActivation_ms f →
      s.nextActivation_ms e < s.nextActivation_ms f →
        (f ∈ block ↔ before s.nextActivation_ms (s.nextActivation_ms f) r = []))
    (hstay : ∀ f ∈ block, s.time < s.nextActivation_ms f →
      s.nextActivation_ms e < s.nextActivation_ms f)
    (hf : f ∈ l ++ r) (hnow : s.time < s.nextActivation_ms f) :
    (if f ∈ block then l.getLast? else s.previous f) =
      predecessor s.nextActivation_ms (l ++ r) f := by
  have hfq : f ∈ l ++ e :: r := by
    rcases List.mem_append.mp hf with hf | hf
    · exact List.mem_append_left _ hf
    · exact List.mem_append_right _ (List.mem_cons_of_mem e hf)
  rw [h.previous f hfq hnow]
  by_cases hle : s.nextActivation_ms f ≤ s.nextActivation_ms e
  · have hfb : f ∉ block := fun hm => absurd (hstay f hm hnow) (not_lt_of_ge hle)
    rw [if_neg hfb, predecessor_insert_of_le hle]
  · have hlt : s.nextActivation_ms e < s.nextActivation_ms f := lt_of_not_ge hle
    have hfr : f ∈ r := by
      rcases List.mem_append.mp hf with hf | hf
      · exact absurd ((List.pairwise_append.mp h.ordered).2.2 f hf e List.mem_cons_self hnow) hle
      · exact hf
    rw [predecessor_insert_of_lt hlt]
    by_cases hfb : f ∈ block
    · have hnil := (hblock f hfr hnow hlt).mp hfb
      rw [if_pos hfb, predecessor_of_before_nil h.ordered hnow hlt hnil]
    · rw [if_neg hfb, if_neg fun hnil => hfb ((hblock f hfr hnow hlt).mpr hnil)]

private theorem sublist_remove : (l ++ r).Sublist (l ++ e :: r) :=
  (List.Sublist.refl l).append (List.sublist_cons_self e r)

theorem Linked.nodup (h : s.Linked q) : q.Nodup := Chain.nodup h.chain

private theorem Linked.notMem_remove (h : s.Linked (l ++ e :: r)) : e ∉ l ++ r := by
  have hnd := h.nodup
  rw [List.nodup_middle] at hnd
  exact (List.nodup_cons.mp hnd).1

private theorem searchEvent_found {p : Option ε} (previous : Option ε)
    (h : Chain s.next p (l ++ e :: r)) (he : e ∉ l) :
    Returns (fun fuel => searchEvent s e fuel p previous) (true, l.getLast?.or previous) := by
  induction l generalizing p previous with
  | nil =>
      rcases h with ⟨rfl, _⟩
      exact (returns_ok _).step fun fuel => by simp [searchEvent]
  | cons a l ih =>
      rcases h with ⟨rfl, h⟩
      have hae : a ≠ e := fun heq => he (by simp [heq])
      have hel : e ∉ l := fun hm => he (List.mem_cons_of_mem a hm)
      have hrest := ih (some a) h hel
      have hlast : (a :: l).getLast?.or previous = l.getLast?.or (some a) := by
        cases hl : l.getLast? <;> simp [List.getLast?_cons, hl]
      rw [hlast]
      exact hrest.step fun fuel => by simp [searchEvent, hae]

private theorem searchEvent_absent {p : Option ε} (previous : Option ε) (h : Chain s.next p q)
    (he : e ∉ q) :
    ∃ previous', Returns (fun fuel => searchEvent s e fuel p previous) (false, previous') := by
  induction q generalizing p previous with
  | nil =>
      have hp : p = none := h
      subst p
      exact ⟨previous, (returns_ok _).step fun fuel => rfl⟩
  | cons a q ih =>
      rcases h with ⟨rfl, h⟩
      have hae : a ≠ e := fun heq => he (by simp [heq])
      rcases ih (some a) h fun hm => he (List.mem_cons_of_mem a hm)
        with ⟨previous', hrest⟩
      exact ⟨previous', hrest.step fun fuel => by simp [searchEvent, hae]⟩

private theorem unlinkTail_returns (h : s.Linked (l ++ [e])) :
    ∃ s', Returns (fun _ => unlinkTail s e l.getLast?) s' ∧ Chain s'.next s'.queueHead l ∧
      s'.queueTail = l.getLast? ∧ s'.previous = s.previous ∧ Kept s s' (l ++ [e]) ∧
      s'.nonePendingHead = s.nonePendingHead := by
  cases hlast : l.getLast? with
  | none =>
      have hl := List.getLast?_eq_none_iff.mp hlast
      subst l
      have hhead : s.queueHead = some e := h.chain.1
      refine ⟨{ s with queueHead := none, queueTail := none }, ?_, rfl, rfl, rfl,
        ⟨rfl, rfl, rfl, fun _ _ => rfl⟩, rfl⟩
      simp only [unlinkTail, hhead, if_true]
      exact returns_ok _
  | some p =>
      obtain ⟨m, rfl⟩ := List.getLast?_eq_some_iff.mp hlast
      have hhead : s.queueHead ≠ some e := by
        intro heq
        have hmem : e ∉ m ++ [p] := by simpa using h.notMem_remove
        have := Chain.head h.chain
        rw [heq, List.append_assoc] at this
        cases m with
        | nil => simp at this hmem; exact hmem this
        | cons a m => simp at this hmem; exact hmem.1 this
      refine ⟨{ s with queueTail := some p }.setNext p none, ?_, ?_, rfl, rfl,
        ⟨rfl, rfl, rfl, ?_⟩, rfl⟩
      · simp only [unlinkTail, hhead, if_false, deref_some, ok_bind]
        exact returns_ok _
      · have hseg : Segment s.next s.queueHead (m ++ [p]) (some e) := Chain.prefix h.chain
        have hp : p ∉ m := by
          have hnd := (List.nodup_append.mp h.nodup).1
          rw [List.nodup_append] at hnd
          exact fun hm => hnd.2.2 p hm p (by simp) rfl
        exact Segment.redirect hseg hp none
      · intro f hf
        have hfp : f ≠ p := fun heq => hf (by simp [heq])
        exact Function.update_of_ne hfp _ _

private theorem bypass_returns (h : s.Linked (l ++ e :: n :: r)) :
    ∃ s', Returns (fun _ => bypass s e l.getLast?) s' ∧ Chain s'.next s'.queueHead (l ++ n :: r) ∧
      s'.next e = some n ∧
      s'.queueTail = s.queueTail ∧ s'.previous = s.previous ∧ Kept s s' (l ++ e :: n :: r) ∧
      s'.nonePendingHead = s.nonePendingHead := by
  have hen : s.next e = some n := Chain.next_eq h.chain
  cases hlast : l.getLast? with
  | none =>
      have hl := List.getLast?_eq_none_iff.mp hlast
      subst l
      have hhead : s.queueHead = some e := h.chain.1
      refine ⟨{ s with queueHead := s.next e }, ?_, h.chain.2, hen, rfl, rfl,
        ⟨rfl, rfl, rfl, fun _ _ => rfl⟩, rfl⟩
      simp only [bypass, hhead, if_true]
      exact returns_ok _
  | some p =>
      obtain ⟨m, rfl⟩ := List.getLast?_eq_some_iff.mp hlast
      have hmem : e ∉ m ++ [p] := fun hm => h.notMem_remove (List.mem_append_left _ hm)
      have hpe : p ≠ e := fun heq => hmem (by simp [heq])
      have hhead : s.queueHead ≠ some e := by
        intro heq
        have hh := Chain.head h.chain
        rw [heq, List.append_assoc] at hh
        cases m with
        | nil => simp at hh; exact hpe hh.symm
        | cons a m => simp at hh hmem; exact hmem.1 hh
      refine ⟨s.setNext p (s.next e), ?_, ?_, ?_, rfl, rfl, ⟨rfl, rfl, rfl, ?_⟩, rfl⟩
      · simp only [bypass, hhead, if_false, deref_some, ok_bind]
        exact returns_ok _
      · have hc : Chain s.next s.queueHead (m ++ p :: e :: n :: r) := by
          simpa using h.chain
        rw [List.append_assoc]
        exact Chain.bypass hc
      · show Function.update s.next p (s.next e) e = some n
        rw [Function.update_of_ne hpe.symm, hen]
      · intro f hf
        have hfp : f ≠ p := fun heq => hf (by simp [heq])
        exact Function.update_of_ne hfp _ _

private theorem unlink_returns (h : s.Linked (l ++ e :: r)) :
    ∃ s', Returns (fun fuel => unlink fuel s e l.getLast?) s' ∧ s'.Linked (l ++ r) ∧
      Kept s s' (l ++ e :: r) ∧ s'.nonePendingHead = s.nonePendingHead := by
  have hordered := h.ordered.sublist (sublist_remove (l := l) (e := e) (r := r))
  cases r with
  | nil =>
      have htail : s.queueTail = some e := by
        rw [h.tail]
        simp
      rcases unlinkTail_returns h with ⟨s', hret, hchain, htail', hprev, hkept, hcache⟩
      refine ⟨s', ?_, ⟨?_, ?_, ?_, ?_⟩, hkept, hcache⟩
      · simp only [unlink, htail, if_true]
        exact hret
      · simpa using hchain
      · simpa using htail'
      · rw [hkept.time, hkept.nextActivation]
        exact hordered
      · intro f hf hnow
        rw [hkept.time, hkept.nextActivation] at *
        rw [hprev]
        exact h.previous_remove [] (by simp) (by simp) hf hnow
  | cons n r =>
      have htail : s.queueTail ≠ some e := by
        intro heq
        rw [h.tail, List.getLast?_append_of_ne_nil _ (by simp), List.getLast?_cons_cons] at heq
        exact h.notMem_remove (List.mem_append_right _ (List.mem_of_getLast? heq))
      rcases bypass_returns h with ⟨s₁, hret, hchain, hnext, htail₁, hprev, hkept, hcache⟩
      have hlast : s.queueTail = (l ++ n :: r).getLast? := by
        rw [h.tail, List.getLast?_append_of_ne_nil _ (by simp),
          List.getLast?_append_of_ne_nil _ (by simp), List.getLast?_cons_cons]
      have hrchain : Chain s₁.next (some n) (n :: r) := Chain.suffix hchain
      have hrord : DueOrdered s.time s.nextActivation_ms (n :: r) :=
        h.ordered.sublist ((List.sublist_cons_self e _).trans (List.sublist_append_right l _))
      have hbehind : ∀ f ∈ n :: r, s.time < s.nextActivation_ms e →
          s.nextActivation_ms e ≤ s.nextActivation_ms f := by
        have hsub : DueOrdered s.time s.nextActivation_ms (e :: n :: r) :=
          h.ordered.sublist (List.sublist_append_right l _)
        exact (dueOrdered_cons.mp hsub).1
      by_cases hsame : s.nextActivation_ms e = s.nextActivation_ms n
      · refine ⟨s₁, ?_, ⟨hchain, htail₁.trans hlast, ?_, ?_⟩, hkept, hcache⟩
        · simp only [unlink, htail, if_false]
          refine hret.bind ?_
          simp only [hnext, deref_some, ok_bind, hkept.nextActivation, hsame, ne_eq,
            not_true_eq_false, if_false]
          exact returns_ok _
        · rw [hkept.time, hkept.nextActivation]
          exact hordered
        · intro f hf hnow
          rw [hkept.time, hkept.nextActivation] at *
          rw [hprev]
          refine h.previous_remove [] (fun a ha hanow hlt => ?_) (by simp) hf hnow
          -- the next event is as late as the removed one
          simp only [List.not_mem_nil, false_iff]
          intro hnil
          have := before_eq_nil.mp hnil n List.mem_cons_self
          omega
      · have hloop := correctBlock_returns l.getLast? (s₁.nextActivation_ms n) hrchain
        refine ⟨s₁.withPrevious ((n :: r).takeWhile
            fun a => decide (s₁.nextActivation_ms a = s₁.nextActivation_ms n)) l.getLast?, ?_,
          ⟨hchain, htail₁.trans hlast, ?_, ?_⟩,
          ⟨hkept.time, hkept.nextActivation, hkept.queued, hkept.next⟩, hcache⟩
        · simp only [unlink, htail, if_false]
          refine hret.bind ?_
          have hne : s₁.nextActivation_ms e ≠ s₁.nextActivation_ms n := by
            rw [hkept.nextActivation]
            exact hsame
          simp only [hnext, deref_some, ok_bind, hne, ne_eq, not_false_eq_true, if_true]
          exact hloop
        · show DueOrdered s₁.time s₁.nextActivation_ms _
          rw [hkept.time, hkept.nextActivation]
          exact hordered
        · intro f hf hnow
          have hnow : s.time < s.nextActivation_ms f := by
            rw [← hkept.time, ← hkept.nextActivation]
            exact hnow
          show (if f ∈ _ then l.getLast? else s₁.previous f) =
            predecessor s₁.nextActivation_ms (l ++ n :: r) f
          rw [hprev, hkept.nextActivation]
          refine h.previous_remove _ (fun a ha hanow _ => hrord.mem_block ha hanow)
            (fun a ha hanow => ?_) hf hnow
          have heq : s.nextActivation_ms a = s.nextActivation_ms n := by
            simpa using List.mem_takeWhile_imp ha
          have har : a ∈ n :: r := (List.takeWhile_sublist _).subset ha
          have hen := hbehind n List.mem_cons_self
          omega

private theorem Linked.clear (h : s.Linked q) (he : e ∉ q) : (s.clear e).Linked q := by
  refine ⟨Chain.update h.chain he none, h.tail, h.ordered, fun f hf hnow => ?_⟩
  have hfe : f ≠ e := fun heq => he (heq ▸ hf)
  show Function.update s.previous e none f = _
  rw [Function.update_of_ne hfe]
  exact h.previous f hf hnow

/-- The cache of the first future event after a removal. -/
def pendingAfterRemove (s : Clock ε) (e : ε) : Option ε :=
  if s.nonePendingHead = some e then s.next e else s.nonePendingHead

/-- `dequeue` of a queued event takes it out and leaves the order of the others. -/
theorem dequeue_found (h : s.Linked (l ++ e :: r)) :
    ∃ s', Returns (fun fuel => dequeue fuel s e) s' ∧ s'.Linked (l ++ r) ∧
      s'.time = s.time ∧ s'.nextActivation_ms = s.nextActivation_ms ∧
      s'.queued = Function.update s.queued e false ∧ s'.next e = none ∧
      (∀ f ∉ l ++ e :: r, s'.next f = s.next f) ∧
      s'.nonePendingHead = s.pendingAfterRemove e := by
  have h1 : ({ s with nonePendingHead := s.pendingAfterRemove e } : Clock ε).Linked (l ++ e :: r) :=
    ⟨h.chain, h.tail, h.ordered, h.previous⟩
  have hel : e ∉ l := fun hm => h.notMem_remove (List.mem_append_left _ hm)
  have hsearch := searchEvent_found none h1.chain hel
  rw [Option.or_none] at hsearch
  rcases unlink_returns h1 with ⟨s', hret, hl, hkept, hcache⟩
  refine ⟨s'.clear e, ?_, hl.clear h.notMem_remove, hkept.time, hkept.nextActivation, ?_, ?_, ?_,
    hcache⟩
  · simp only [dequeue]
    refine hsearch.bind ?_
    simp only [if_true]
    exact hret.bind (returns_ok _)
  · show Function.update s'.queued e false = _
    rw [hkept.queued]
  · exact Function.update_self e none s'.next
  · intro f hf
    have hfe : f ≠ e := fun heq => hf (by simp [heq])
    show Function.update s'.next e none f = s.next f
    rw [Function.update_of_ne hfe]
    exact hkept.next f hf

/-- `dequeue` of an event outside the queue clears the event only. -/
theorem dequeue_absent (h : s.Linked q) (he : e ∉ q) :
    ∃ s', Returns (fun fuel => dequeue fuel s e) s' ∧ s'.Linked q ∧
      s'.time = s.time ∧ s'.nextActivation_ms = s.nextActivation_ms ∧
      s'.queued = Function.update s.queued e false ∧ s'.next e = none ∧
      (∀ f, f ≠ e → s'.next f = s.next f) ∧
      s'.nonePendingHead = s.pendingAfterRemove e := by
  have h1 : ({ s with nonePendingHead := s.pendingAfterRemove e } : Clock ε).Linked q :=
    ⟨h.chain, h.tail, h.ordered, h.previous⟩
  rcases searchEvent_absent none h1.chain he with ⟨previous', hsearch⟩
  refine ⟨({ s with nonePendingHead := s.pendingAfterRemove e } : Clock ε).clear e, ?_, h1.clear he,
    rfl, rfl, rfl, ?_, ?_, rfl⟩
  · simp only [dequeue]
    exact hsearch.bind (returns_ok _)
  · show Function.update s.next e none e = none
    exact Function.update_self e none s.next
  · intro f hfe
    show Function.update s.next e none f = s.next f
    exact Function.update_of_ne hfe none s.next

theorem takeHead_linked (h : s.Linked (e :: r)) (hdue : s.nextActivation_ms e ≤ s.time) :
    ∃ s', Returns (fun fuel => correctFirst fuel (s.takeHead e)) s' ∧ s'.Linked r ∧
      s'.time = s.time ∧ s'.nextActivation_ms = s.nextActivation_ms ∧
      s'.queued = Function.update s.queued e false ∧ s'.next = Function.update s.next e none ∧
      s'.nonePendingHead = s.pendingAfterRemove e := by
  have her : e ∉ r := (List.nodup_cons.mp h.nodup).1
  have hhead : (s.takeHead e).queueHead = r.head? := Chain.head h.chain.2
  have hchain : Chain (s.takeHead e).next (s.takeHead e).queueHead r :=
    Chain.update h.chain.2 her none
  have hordered : DueOrdered s.time s.nextActivation_ms r := (dueOrdered_cons.mp h.ordered).2
  have h0 : s.Linked ([] ++ e :: r) := h
  cases r with
  | nil =>
      refine ⟨{ s.takeHead e with queueTail := none }, ?_, ⟨hchain, rfl, dueOrdered_nil, by simp⟩,
        rfl, rfl, rfl, rfl, rfl⟩
      simp only [correctFirst, hhead, List.head?_nil]
      exact returns_ok _
  | cons n r =>
      have htail : s.queueTail = (n :: r).getLast? := by
        rw [h.tail, List.getLast?_cons_cons]
      by_cases hprev : s.previous n = none
      · refine ⟨s.takeHead e, ?_, ⟨hchain, htail, hordered, ?_⟩, rfl, rfl, rfl, rfl, rfl⟩
        · have hp : (s.takeHead e).previous n = none := hprev
          simp only [correctFirst, hhead, List.head?_cons, hp, ne_eq, not_true_eq_false, if_false]
          exact returns_ok _
        · intro f hf hnow
          refine h0.previous_remove [] (fun a ha hanow hlt => ?_) (by simp) hf hnow
          simp only [List.not_mem_nil, false_iff]
          intro hnil
          -- otherwise the new head is a future event that leads to the removed one
          have hn : s.time < s.nextActivation_ms n :=
            lt_of_lt_of_le hanow (before_eq_nil.mp hnil n List.mem_cons_self)
          have hen : s.nextActivation_ms e < s.nextActivation_ms n := lt_of_le_of_lt hdue hn
          have hbefore : before s.nextActivation_ms (s.nextActivation_ms n) (n :: r) = [] := by
            rw [before_eq_nil]
            intro b hb
            rcases List.mem_cons.mp hb with rfl | hb
            · exact le_rfl
            · exact (dueOrdered_cons.mp hordered).1 b hb hn
          have hpred := h0.previous n (by simp) hn
          rw [predecessor_insert_of_lt hen, if_pos hbefore, hprev] at hpred
          simp at hpred
      · have hloop := correctBlock_returns none ((s.takeHead e).nextActivation_ms n)
          (hhead ▸ hchain)
        refine ⟨(s.takeHead e).withPrevious ((n :: r).takeWhile fun a =>
            decide ((s.takeHead e).nextActivation_ms a = (s.takeHead e).nextActivation_ms n)) none,
          ?_, ⟨hchain, htail, hordered, ?_⟩, rfl, rfl, rfl, rfl, rfl⟩
        · have hp : (s.takeHead e).previous n ≠ none := hprev
          simp only [correctFirst, hhead, List.head?_cons, hp, ne_eq, not_false_eq_true, if_true]
          exact hloop
        · intro f hf hnow
          refine h0.previous_remove _ (fun a ha hanow _ => hordered.mem_block ha hanow)
            (fun a _ hanow => ?_) hf hnow
          exact lt_of_le_of_lt hdue hanow

private theorem clearAll_returns {p : Option ε} (h : Chain s.next p q) :
    ∃ s', Returns (fun fuel => clearAll fuel p s) s' ∧ s'.time = s.time ∧
      s'.nextActivation_ms = s.nextActivation_ms ∧ s'.nonePendingHead = s.nonePendingHead ∧
      (∀ f ∈ q, s'.queued f = false ∧ s'.next f = none) ∧
      ∀ f ∉ q, s'.queued f = s.queued f ∧ s'.next f = s.next f := by
  induction q generalizing p s with
  | nil =>
      have hp : p = none := h
      subst p
      exact ⟨s, (returns_ok s).step fun _ => rfl, rfl, rfl, rfl, by simp, by simp⟩
  | cons a q ih =>
      have haq : a ∉ q := (List.nodup_cons.mp (Chain.nodup h)).1
      rcases h with ⟨rfl, h⟩
      have hrest : Chain (s.clear a).next (s.next a) q := Chain.update h haq none
      rcases ih hrest with ⟨s', hret, htime, hact, hcache, hin, hout⟩
      have ha := hout a haq
      refine ⟨s', hret.step fun _ => rfl, htime, hact, hcache, ?_, ?_⟩
      · intro f hf
        rcases List.mem_cons.mp hf with rfl | hf
        · rw [ha.1, ha.2]
          constructor
          · show Function.update s.queued f false f = false
            exact Function.update_self f false s.queued
          · show Function.update s.next f none f = none
            exact Function.update_self f none s.next
        · exact hin f hf
      · intro f hf
        rw [List.mem_cons, not_or] at hf
        rw [(hout f hf.2).1, (hout f hf.2).2]
        constructor
        · show Function.update s.queued a false f = s.queued f
          exact Function.update_of_ne hf.1 false s.queued
        · show Function.update s.next a none f = s.next f
          exact Function.update_of_ne hf.1 none s.next

theorem dequeueAll_returns (h : s.Linked q) :
    ∃ s', Returns (fun fuel => dequeueAll fuel s) s' ∧ s'.Linked [] ∧ s'.time = s.time ∧
      s'.nextActivation_ms = s.nextActivation_ms ∧ s'.nonePendingHead = none ∧
      (∀ f ∈ q, s'.queued f = false ∧ s'.next f = none) ∧
      ∀ f ∉ q, s'.queued f = s.queued f ∧ s'.next f = s.next f := by
  have h1 : Chain ({ s with nonePendingHead := none } : Clock ε).next s.queueHead q := h.chain
  rcases clearAll_returns h1 with ⟨s', hret, htime, hact, hcache, hin, hout⟩
  refine ⟨{ s' with queueHead := none, queueTail := none }, ?_,
    ⟨rfl, rfl, dueOrdered_nil, by simp⟩, htime, hact, hcache, hin, hout⟩
  simp only [dequeueAll]
  exact hret.bind (returns_ok _)

end TaskingFramework.Clock
