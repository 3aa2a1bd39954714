import TaskingFramework.Clock.Linked

/-!
# Insertion into the clock queue

What `enqueue` and `enqueueHead` do to the list of queued events.
-/

set_option linter.unusedSectionVars false

namespace TaskingFramework.Clock

open Foundation

variable {ε : Type} [DecidableEq ε] {s s' : Clock ε} {q l r : List ε} {e f n p : ε}

/-- The clock and the times stay, and so do the links of the events that are not in `q`. -/
structure Kept (s s' : Clock ε) (q : List ε) : Prop where
  time : s'.time = s.time
  nextActivation : s'.nextActivation_ms = s.nextActivation_ms
  queued : s'.queued = s.queued
  next : ∀ f ∉ q, s'.next f = s.next f

private theorem mem_block_iff (h : DueOrdered s.time s.nextActivation_ms r) (hr : r.head? = some n)
    (hf : f ∈ r) (hnow : s.time < s.nextActivation_ms f) :
    f ∈ r.takeWhile (fun b => decide (s.nextActivation_ms b = s.nextActivation_ms n)) ↔
      before s.nextActivation_ms (s.nextActivation_ms f) r = [] := by
  cases r with
  | nil => simp at hr
  | cons a r =>
      have ha : a = n := by simpa using hr
      subst n
      exact h.mem_block hf hnow

private theorem Linked.setHead (hchain : Chain s.next s.queueHead q) (he : e ∉ q)
    (htail : s.queueTail = (e :: q).getLast?)
    (hordered : DueOrdered s.time s.nextActivation_ms (e :: q))
    (hself : s.time < s.nextActivation_ms e → predecessor s.nextActivation_ms (e :: q) e = none)
    (hprevious : ∀ f ∈ q, s.time < s.nextActivation_ms f →
      s.previous f = predecessor s.nextActivation_ms (e :: q) f) :
    (s.setHead e).Linked (e :: q) := by
  refine ⟨hchain.push he, htail, hordered, fun f hf hnow => ?_⟩
  rcases List.mem_cons.mp hf with rfl | hf
  · show Function.update s.previous f none f = _
    rw [Function.update_self]
    exact (hself hnow).symm
  · have hfe : f ≠ e := fun heq => he (heq ▸ hf)
    show Function.update s.previous e none f = _
    rw [Function.update_of_ne hfe]
    exact hprevious f hf hnow

private theorem enqueueFront_returns (h : s.Linked q) (hq : q ≠ []) (he : e ∉ q)
    (hnow : s.time < s.nextActivation_ms e)
    (hlater : ∀ a ∈ q, s.nextActivation_ms e < s.nextActivation_ms a) :
    ∃ s', Returns (fun fuel => enqueueFront fuel s e) s' ∧ s'.Linked (e :: q) ∧
      Kept s s' (e :: q) ∧
      s'.nonePendingHead = (if s.nonePendingHead ≠ none then some e else none) := by
  have hfuture : ∀ a ∈ q, s.time < s.nextActivation_ms a := fun a ha =>
    lt_trans hnow (hlater a ha)
  -- the loop visits the events without an earlier one
  have hloop := correctPrevious_returns (some e) (fun s f => decide (s.previous f = none))
    (fun f => decide (s.previous f = none)) h.chain (fun _ _ => rfl)
    (fun r a f hfa => by simp [setPrevious, hfa])
  have hblock : ∀ f ∈ q, f ∈ q.takeWhile (fun f => decide (s.previous f = none)) ↔
      before s.nextActivation_ms (s.nextActivation_ms f) q = [] := by
    intro f hf
    have hnone : ∀ a ∈ q, s.previous a = none ↔
        before s.nextActivation_ms (s.nextActivation_ms a) q = [] := by
      intro a ha
      rw [h.previous a ha (hfuture a ha), predecessor, List.getLast?_eq_none_iff]
    have hpair : q.Pairwise fun a b =>
        decide (s.previous b = none) = true → decide (s.previous a = none) = true := by
      refine List.Pairwise.imp_of_mem (fun {a b} ha hb hab hbn => ?_) h.ordered
      rw [decide_eq_true_iff, hnone b hb, before_eq_nil] at hbn
      rw [decide_eq_true_iff, hnone a ha, before_eq_nil]
      intro c hc
      exact le_trans (hab (hfuture a ha)) (hbn c hc)
    rw [takeWhile_eq_filter hpair, List.mem_filter, decide_eq_true_iff, hnone f hf]
    exact and_iff_right hf
  generalize hb : q.takeWhile (fun f => decide (s.previous f = none)) = block at hloop hblock
  have hlinked : ((s.withPrevious block (some e)).setHead e).Linked (e :: q) := by
    apply Linked.setHead (s := s.withPrevious block (some e)) h.chain he
    · rw [List.getLast?_cons_of_ne_nil hq]
      exact h.tail
    · exact dueOrdered_cons.mpr ⟨fun b hb _ => le_of_lt (hlater b hb), h.ordered⟩
    · intro _
      rw [predecessor, List.getLast?_eq_none_iff, before_eq_nil]
      intro a ha
      rcases List.mem_cons.mp ha with rfl | ha
      · exact le_rfl
      · exact le_of_lt (hlater a ha)
    · intro f hf _
      have hins := predecessor_insert_of_lt (l := []) (r := q) (hlater f hf)
      rw [List.nil_append, List.nil_append] at hins
      show (if f ∈ block then some e else s.previous f) = predecessor s.nextActivation_ms (e :: q) f
      rw [hins, h.previous f hf (hfuture f hf)]
      by_cases hfb : f ∈ block
      · rw [if_pos hfb, if_pos ((hblock f hf).mp hfb)]
      · rw [if_neg hfb, if_neg fun hnil => hfb ((hblock f hf).mpr hnil)]
  have hnext : ∀ f ∉ e :: q, Function.update s.next e s.queueHead f = s.next f := by
    intro f hf
    exact Function.update_of_ne (fun heq => hf (by simp [heq])) _ _
  refine ⟨{ (s.withPrevious block (some e)).setHead e with
      nonePendingHead := if s.nonePendingHead ≠ none then some e else none }, ?_,
    ⟨hlinked.chain, hlinked.tail, hlinked.ordered, hlinked.previous⟩, ⟨rfl, rfl, rfl, hnext⟩, rfl⟩
  exact hloop.bind (returns_ok _)

private theorem correctBehind_returns (h : s.Linked (l ++ p :: r)) (he : e ∉ l ++ p :: r)
    (hnow : s.time < s.nextActivation_ms e)
    (hearlier : ∀ a ∈ l ++ [p], s.nextActivation_ms a ≤ s.nextActivation_ms e)
    (hlater : ∀ a ∈ r, s.nextActivation_ms e < s.nextActivation_ms a) :
    ∃ s', Returns (fun fuel => correctBehind fuel (s.linkBehind e p) e) s' ∧
      s'.Linked (l ++ p :: e :: r) ∧ Kept s s' (l ++ p :: e :: r) ∧
      s'.nonePendingHead =
        (if r.head? = s.nonePendingHead then some e else s.nonePendingHead) := by
  have hpe : p ≠ e := fun heq => he (by simp [heq])
  have hsplit : ∀ m : List ε, l ++ p :: m = (l ++ [p]) ++ m := fun m => by simp
  have hordered : DueOrdered s.time s.nextActivation_ms (l ++ p :: e :: r) := by
    rw [hsplit]
    exact DueOrdered.insert (hsplit r ▸ h.ordered) hearlier hlater
  have hchain : Chain (s.linkBehind e p).next s.queueHead (l ++ p :: e :: r) :=
    Chain.insert h.chain he
  have hnexte : (s.linkBehind e p).next e = r.head? := by
    show Function.update (Function.update s.next e (s.next p)) p (some e) e = r.head?
    rw [Function.update_of_ne hpe.symm, Function.update_self]
    exact Chain.next_eq h.chain
  have hkept : ∀ f ∉ l ++ p :: e :: r, (s.linkBehind e p).next f = s.next f := by
    intro f hf
    simp only [List.mem_append, List.mem_cons, not_or] at hf
    show Function.update (Function.update s.next e (s.next p)) p (some e) f = s.next f
    rw [Function.update_of_ne hf.2.1, Function.update_of_ne hf.2.2.1]
  have hcache : (s.linkBehind e p).nonePendingHead =
      if r.head? = s.nonePendingHead then some e else s.nonePendingHead := by
    rw [← hnexte]
    rfl
  -- the new event
  have hself : (s.linkBehind e p).previous e =
      predecessor s.nextActivation_ms (l ++ p :: e :: r) e := by
    show Function.update s.previous e _ e = _
    rw [Function.update_self]
    by_cases hsame : s.nextActivation_ms p = s.nextActivation_ms e
    · have hpnow : s.time < s.nextActivation_ms p := hsame ▸ hnow
      rw [if_pos hsame, hsplit, predecessor_insert_of_le le_rfl, ← hsplit,
        h.previous p (by simp) hpnow, predecessor, predecessor, hsame]
    · have hlt : s.nextActivation_ms p < s.nextActivation_ms e :=
        lt_of_le_of_ne (hearlier p (by simp)) hsame
      rw [if_neg hsame, predecessor_insert_of_lt hlt, if_pos]
      rw [before_eq_nil]
      intro a ha
      rcases List.mem_cons.mp ha with rfl | ha
      · exact le_rfl
      · exact le_of_lt (hlater a ha)
  -- the others, once the block behind the new event is corrected
  have hothers : ∀ f ∈ l ++ p :: r, s.time < s.nextActivation_ms f → ∀ block : List ε,
      (∀ f ∈ r, s.time < s.nextActivation_ms f →
        (f ∈ block ↔ before s.nextActivation_ms (s.nextActivation_ms f) r = [])) →
      (∀ f ∈ block, f ∈ r) →
      (if f ∈ block then some e else (s.linkBehind e p).previous f) =
        predecessor s.nextActivation_ms (l ++ p :: e :: r) f := by
    intro f hf hfnow block hblock hsub
    have hfe : f ≠ e := fun heq => he (heq ▸ hf)
    have hold : (s.linkBehind e p).previous f = s.previous f := Function.update_of_ne hfe _ _
    rw [hold, h.previous f hf hfnow]
    by_cases hle : s.nextActivation_ms f ≤ s.nextActivation_ms e
    · have hfb : f ∉ block := fun hm => absurd (hlater f (hsub f hm)) (not_lt_of_ge hle)
      rw [if_neg hfb, hsplit (e :: r), predecessor_insert_of_le hle, ← hsplit]
    · have hlt : s.nextActivation_ms e < s.nextActivation_ms f := lt_of_not_ge hle
      have hfr : f ∈ r := by
        rw [hsplit] at hf
        rcases List.mem_append.mp hf with hf | hf
        · exact absurd (hearlier f hf) hle
        · exact hf
      rw [hsplit (e :: r), predecessor_insert_of_lt hlt, ← hsplit]
      by_cases hfb : f ∈ block
      · rw [if_pos hfb, if_pos ((hblock f hfr hfnow).mp hfb)]
      · rw [if_neg hfb, if_neg fun hnil => hfb ((hblock f hfr hfnow).mpr hnil)]
  have hmem : ∀ f ∈ l ++ p :: e :: r, f = e ∨ f ∈ l ++ p :: r := by
    intro f hf
    simp only [List.mem_append, List.mem_cons] at hf ⊢
    tauto
  cases r with
  | nil =>
      refine ⟨{ s.linkBehind e p with queueTail := some e }, ?_,
        ⟨hchain, by simp, hordered, ?_⟩, ⟨rfl, rfl, rfl, hkept⟩, hcache⟩
      · simp only [correctBehind, hnexte, List.head?_nil]
        exact returns_ok _
      · intro f hf hfnow
        rcases hmem f hf with rfl | hf
        · exact hself
        · exact hothers f hf hfnow [] (by simp) (by simp)
  | cons n r =>
      have hrchain : Chain (s.linkBehind e p).next (some n) (n :: r) := by
        have hsuffix : l ++ p :: e :: n :: r = (l ++ [p, e]) ++ n :: r := by simp
        exact Chain.suffix (hsuffix ▸ hchain)
      have hloop := correctBlock_returns (some e) (s.nextActivation_ms n) hrchain
      have hrord : DueOrdered s.time s.nextActivation_ms (n :: r) :=
        h.ordered.sublist ((List.sublist_cons_self p _).trans (List.sublist_append_right l _))
      refine ⟨(s.linkBehind e p).withPrevious ((n :: r).takeWhile
          fun a => decide (s.nextActivation_ms a = s.nextActivation_ms n)) (some e), ?_,
        ⟨hchain, ?_, hordered, ?_⟩, ⟨rfl, rfl, rfl, hkept⟩, hcache⟩
      · simp only [correctBehind, hnexte, List.head?_cons]
        exact hloop
      · have htail : (s.linkBehind e p).queueTail = (l ++ p :: n :: r).getLast? := h.tail
        rw [List.getLast?_append_of_ne_nil _ (by simp)] at htail ⊢
        simpa [withPrevious] using htail
      · intro f hf hfnow
        have hblock : ∀ f ∈ n :: r, s.time < s.nextActivation_ms f →
            (f ∈ (n :: r).takeWhile
                (fun a => decide (s.nextActivation_ms a = s.nextActivation_ms n)) ↔
              before s.nextActivation_ms (s.nextActivation_ms f) (n :: r) = []) :=
          fun f hf hfnow => hrord.mem_block hf hfnow
        rcases hmem f hf with rfl | hf
        · have hfb : f ∉ (n :: r).takeWhile
              (fun a => decide (s.nextActivation_ms a = s.nextActivation_ms n)) := by
            intro hm
            have := hlater f ((List.takeWhile_sublist _).subset hm)
            omega
          show (if f ∈ _ then some f else (s.linkBehind f p).previous f) = _
          rw [if_neg hfb]
          exact hself
        · exact hothers f hf hfnow _ hblock fun a ha => (List.takeWhile_sublist _).subset ha

/-- The cache of the first future event after an insertion. -/
def pendingAfterInsert (s : Clock ε) (q : List ε) (e : ε) : Option ε :=
  if q = [] then s.nonePendingHead
  else if upTo s.nextActivation_ms (s.nextActivation_ms e) q = [] then
    if s.nonePendingHead ≠ none then some e else none
  else if (behind s.nextActivation_ms (s.nextActivation_ms e) q).head? = s.nonePendingHead then some e
  else s.nonePendingHead

theorem enqueue_returns (h : s.Linked q) (he : e ∉ q) (hnext : s.next e = none)
    (hnow : s.time < s.nextActivation_ms e) :
    ∃ s', Returns (fun fuel => enqueue fuel s.time s e)
        (s', decide (∀ a ∈ q, s.nextActivation_ms a ≤ s.time ∨
          s.nextActivation_ms e < s.nextActivation_ms a)) ∧
      s'.Linked (insertAt s.nextActivation_ms (s.nextActivation_ms e) e q) ∧
      s'.time = s.time ∧ s'.nextActivation_ms = s.nextActivation_ms ∧
      s'.queued = Function.update s.queued e true ∧
      (∀ f, f ≠ e → f ∉ q → s'.next f = s.next f) ∧
      s'.nonePendingHead = s.pendingAfterInsert q e := by
  have hset : (s.setQueued e true).setNext e none = s.setQueued e true := by
    have hn : Function.update s.next e none = s.next := by
      rw [← hnext]
      exact Function.update_eq_self e s.next
    simp [setQueued, setNext, hn]
  have h1 : (s.setQueued e true).Linked q := ⟨h.chain, h.tail, h.ordered, h.previous⟩
  have hsplit := h.ordered.split (le_of_lt hnow)
  have hsearch : Returns (fun fuel => searchPrevious (s.setQueued e true) (s.nextActivation_ms e) fuel
      (s.setQueued e true).queueTail) (upTo s.nextActivation_ms (s.nextActivation_ms e) q).getLast? :=
    searchPrevious_returns h1 hnow
  have hlater : ∀ a ∈ behind s.nextActivation_ms (s.nextActivation_ms e) q,
      s.nextActivation_ms e < s.nextActivation_ms a := fun a ha => (mem_behind.mp ha).2
  cases hq : q with
  | nil =>
      have hhead : (s.setQueued e true).queueHead = none := by
        have := h.chain
        rw [hq] at this
        exact this
      refine ⟨{ (s.setQueued e true).setPrevious e none with
          queueHead := some e, queueTail := some e }, ?_, ?_, rfl, rfl, rfl, fun _ _ _ => rfl, ?_⟩
      · simp only [enqueue, hset, hhead, if_true]
        simp
        exact returns_ok _
      · refine ⟨⟨rfl, hnext⟩, rfl, List.pairwise_singleton _ _, ?_⟩
        intro f hf _
        have hfe : f = e := by simpa [insertAt, upTo, behind] using hf
        subst f
        simp [setPrevious, predecessor, before, insertAt, upTo, behind]
      · simp [pendingAfterInsert, setPrevious, setQueued]
  | cons head rest =>
      have hne : q ≠ [] := by simp [hq]
      have hhead : (s.setQueued e true).queueHead ≠ none := by
        intro hnone
        have hc := h1.chain
        rw [hnone] at hc
        exact hne (Chain.eq_nil hc)
      rw [← hq]
      cases hlast : (upTo s.nextActivation_ms (s.nextActivation_ms e) q).getLast? with
      | none =>
          rw [hlast] at hsearch
          have hup := List.getLast?_eq_none_iff.mp hlast
          have hall : ∀ a ∈ q, s.nextActivation_ms e < s.nextActivation_ms a := upTo_eq_nil.mp hup
          have hbehind : behind s.nextActivation_ms (s.nextActivation_ms e) q = q :=
            behind_eq_self.mpr hall
          rcases enqueueFront_returns h1 hne he hnow hall with ⟨s', hret, hl, hkept, hcache⟩
          have hfirst : decide (∀ a ∈ q, s.nextActivation_ms a ≤ s.time ∨
              s.nextActivation_ms e < s.nextActivation_ms a) = true :=
            decide_eq_true fun a ha => Or.inr (hall a ha)
          refine ⟨s', ?_, ?_, hkept.time, hkept.nextActivation, hkept.queued, ?_, ?_⟩
          · rw [hfirst]
            simp only [enqueue, hset, hhead, if_false]
            exact hsearch.bind (hret.bind (returns_ok _))
          · rw [insertAt, hup, hbehind]
            exact hl
          · intro f hfe hfq
            exact hkept.next f (by simp [hfe, hfq])
          · rw [pendingAfterInsert, if_neg hne, if_pos hup]
            exact hcache
      | some p =>
          rw [hlast] at hsearch
          obtain ⟨l, hup⟩ := List.getLast?_eq_some_iff.mp hlast
          have hupne : upTo s.nextActivation_ms (s.nextActivation_ms e) q ≠ [] := by simp [hup]
          have hq' : q = l ++ p :: behind s.nextActivation_ms (s.nextActivation_ms e) q := by
            calc q = upTo s.nextActivation_ms (s.nextActivation_ms e) q ++
                  behind s.nextActivation_ms (s.nextActivation_ms e) q := hsplit
              _ = l ++ p :: behind s.nextActivation_ms (s.nextActivation_ms e) q := by
                  rw [hup]
                  simp
          have hearlier : ∀ a ∈ l ++ [p], s.nextActivation_ms a ≤ s.nextActivation_ms e := by
            intro a ha
            rw [← hup] at ha
            exact (mem_upTo.mp ha).2
          have hl1 : (s.setQueued e true).Linked
              (l ++ p :: behind s.nextActivation_ms (s.nextActivation_ms e) q) := by
            rw [← hq']
            exact h1
          have hord : DueOrdered s.time s.nextActivation_ms
              (l ++ p :: behind s.nextActivation_ms (s.nextActivation_ms e) q) := hl1.ordered
          have he' : e ∉ l ++ p :: behind s.nextActivation_ms (s.nextActivation_ms e) q := by
            rw [← hq']
            exact he
          rcases correctBehind_returns hl1 he' hnow hearlier hlater
            with ⟨s', hret, hl, hkept, hcache⟩
          have hfirst : decide (∀ a ∈ q, s.nextActivation_ms a ≤ s.time ∨
              s.nextActivation_ms e < s.nextActivation_ms a) =
              decide (s.nextActivation_ms p ≠ s.nextActivation_ms e ∧
                s.nextActivation_ms p ≤ s.time) := by
            rw [decide_eq_decide, hq']
            exact hord.due_or_behind_iff hnow (hearlier p (by simp)) hlater
          refine ⟨s', ?_, ?_, hkept.time, hkept.nextActivation, hkept.queued, ?_, ?_⟩
          · rw [hfirst]
            simp only [enqueue, hset, hhead, if_false]
            exact hsearch.bind (hret.bind (returns_ok _))
          · rw [insertAt, hup, List.append_assoc]
            exact hl
          · intro f hfe hfq
            rw [hq'] at hfq
            simp only [List.mem_append, List.mem_cons, not_or] at hfq
            exact hkept.next f (by simp [hfe, hfq])
          · rw [pendingAfterInsert, if_neg hne, if_neg hupne]
            exact hcache

/-- A due event becomes the head, whatever the order of the due events. -/
theorem enqueueHead_returns (h : s.Linked q) (he : e ∉ q) (hnow : s.nextActivation_ms e ≤ s.time) :
    ∃ s', Returns (fun fuel => enqueueHead fuel s e) s' ∧ s'.Linked (e :: q) ∧
      Kept s s' (e :: q) ∧ s'.nonePendingHead = s.nonePendingHead := by
  have hordered := h.ordered.push_due hnow
  have hself : ∀ f, s.time < s.nextActivation_ms f → f ∈ q →
      predecessor s.nextActivation_ms (e :: q) f =
        if before s.nextActivation_ms (s.nextActivation_ms f) q = [] then some e
        else predecessor s.nextActivation_ms q f := by
    intro f hf _
    have hins := predecessor_insert_of_lt (l := []) (r := q) (lt_of_le_of_lt hnow hf)
    rwa [List.nil_append, List.nil_append] at hins
  have hkept : ∀ f ∉ e :: q, Function.update s.next e s.queueHead f = s.next f := by
    intro f hf
    exact Function.update_of_ne (fun heq => hf (by simp [heq])) _ _
  cases hq : q with
  | nil =>
      have hhead : s.queueHead = none := by
        have hc := h.chain
        rw [hq] at hc
        exact hc
      refine ⟨setHead { s with queueTail := some e } e, ?_, ?_, ⟨rfl, rfl, rfl, hq ▸ hkept⟩, rfl⟩
      · simp only [enqueueHead, correctHead, hhead, ok_bind]
        exact returns_ok _
      · refine Linked.setHead (s := { s with queueTail := some e }) ?_ (by simp) (by simp) ?_ ?_ ?_
        · exact hhead
        · exact List.pairwise_singleton _ _
        · exact fun hlt => absurd hnow (not_le_of_gt hlt)
        · simp
  | cons head rest =>
      have hhead : s.queueHead = some head := by
        have hc := h.chain
        rw [hq] at hc
        exact hc.1
      have hne : q ≠ [] := by simp [hq]
      have htail : s.queueTail = (e :: q).getLast? := by
        rw [List.getLast?_cons_of_ne_nil hne]
        exact h.tail
      rw [← hq]
      by_cases hlt : s.nextActivation_ms e < s.nextActivation_ms head
      · have hloop := correctBlock_returns (some e) (s.nextActivation_ms head) h.chain
        refine ⟨setHead (s.withPrevious (q.takeWhile
            fun a => decide (s.nextActivation_ms a = s.nextActivation_ms head)) (some e)) e,
          ?_, ?_, ⟨rfl, rfl, rfl, hkept⟩, rfl⟩
        · simp only [enqueueHead, correctHead, hhead, if_pos hlt]
          rw [hhead] at hloop
          exact hloop.bind (returns_ok _)
        · refine Linked.setHead (s := s.withPrevious (q.takeWhile
            fun a => decide (s.nextActivation_ms a = s.nextActivation_ms head)) (some e))
            h.chain he htail hordered (fun hlt => absurd hnow (not_le_of_gt hlt)) ?_
          intro f hf hfnow
          show (if f ∈ _ then some e else s.previous f) = predecessor s.nextActivation_ms (e :: q) f
          rw [hself f hfnow hf, h.previous f hf hfnow]
          have hblock := mem_block_iff h.ordered (n := head) (by simp [hq]) hf hfnow
          by_cases hfb : f ∈ q.takeWhile
              (fun a => decide (s.nextActivation_ms a = s.nextActivation_ms head))
          · rw [if_pos hfb, if_pos (hblock.mp hfb)]
          · rw [if_neg hfb, if_neg fun hnil => hfb (hblock.mpr hnil)]
      · refine ⟨s.setHead e, ?_, ?_, ⟨rfl, rfl, rfl, hkept⟩, rfl⟩
        · simp only [enqueueHead, correctHead, hhead, if_neg hlt, ok_bind]
          exact returns_ok _
        · refine Linked.setHead h.chain he htail hordered
            (fun hlt => absurd hnow (not_le_of_gt hlt)) ?_
          intro f hf hfnow
          -- the head is due, so every future event has an earlier one
          have hbefore : before s.nextActivation_ms (s.nextActivation_ms f) q ≠ [] := by
            intro hnil
            have hle := before_eq_nil.mp hnil head (by simp [hq])
            omega
          rw [hself f hfnow hf, if_neg hbefore, h.previous f hf hfnow]

end TaskingFramework.Clock
