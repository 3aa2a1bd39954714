import TaskingFramework.Clock.Dequeue

/-!
# The operations of the clock

Each operation of the clock in terms of the list of queued events. The events outside the list have
no link and are not marked as queued, so that they can be started.
-/

set_option linter.unusedSectionVars false

namespace TaskingFramework.Clock

open Foundation

variable {ε : Type} [DecidableEq ε] {s s' : Clock ε} {q l r : List ε} {e f : ε} {t : Nat}

structure Represents (s : Clock ε) (q : List ε) : Prop extends s.Linked q where
  outside : ∀ f ∉ q, s.queued f = false ∧ s.next f = none

theorem represents_empty (time : Nat) : (empty time : Clock ε).Represents [] :=
  ⟨linked_empty time, fun _ _ => ⟨rfl, rfl⟩⟩

theorem Represents.advance (h : s.Represents q) {time : Nat} (ht : s.time ≤ time) :
    { s with time := time }.Represents q :=
  ⟨h.toLinked.advance ht, h.outside⟩

@[simp] theorem setNextActivation_time : (s.setNextActivation e t).time = s.time := rfl

@[simp] theorem setNextActivation_nextActivation_ms :
    (s.setNextActivation e t).nextActivation_ms = Function.update s.nextActivation_ms e t := rfl

@[simp] theorem setNextActivation_nonePendingHead :
    (s.setNextActivation e t).nonePendingHead = s.nonePendingHead := rfl

theorem setNextActivation_of_mem (he : e ∉ q) (hf : f ∈ q) :
    Function.update s.nextActivation_ms e t f = s.nextActivation_ms f :=
  Function.update_of_ne (fun heq : f = e => he (heq ▸ hf)) _ _

theorem Represents.setNextActivation (h : s.Represents q) (he : e ∉ q) (time : Nat) :
    (s.setNextActivation e time).Represents q := by
  have htime : ∀ f ∈ q, (s.setNextActivation e time).nextActivation_ms f = s.nextActivation_ms f :=
    fun f hf => setNextActivation_of_mem he hf
  refine ⟨⟨h.chain, h.tail, h.ordered.congr htime, fun f hf hnow => ?_⟩, h.outside⟩
  rw [htime f hf] at hnow
  have hbefore : before (s.setNextActivation e time).nextActivation_ms (s.nextActivation_ms f) q =
      before s.nextActivation_ms (s.nextActivation_ms f) q := by
    apply List.filter_congr
    intro a ha
    rw [htime a ha]
  show s.previous f = _
  rw [h.previous f hf hnow, predecessor, predecessor, htime f hf, hbefore]

theorem toInt64_of_lt {x : Int} (hlow : -2 ^ 63 ≤ x) (hhigh : x < 2 ^ 63) : toInt64 x = x :=
  Int.bmod_eq_of_le (by omega) (by omega)

/-- The start times that are read rightly by their signed difference to the current time. -/
def Near (now t : Nat) : Prop := now ≤ t + 2 ^ 63 ∧ t < now + 2 ^ 63

instance (now t : Nat) : Decidable (Near now t) := inferInstanceAs (Decidable (_ ∧ _))

theorem near_of_lt {now : Nat} (ht : t < 2 ^ 63) (hnow : now < 2 ^ 63) : Near now t :=
  ⟨by omega, by omega⟩

private theorem delay_eq {now : Nat} (h : Near now t) :
    toInt64 (toInt64 t - toInt64 now) = (t : Int) - now := by
  obtain ⟨hlow, hhigh⟩ := h
  have hbmod : toInt64 (toInt64 t - toInt64 now) = toInt64 ((t : Int) - now) := by
    simp only [toInt64, Int.bmod_sub_bmod, Int.sub_bmod_bmod]
  rw [hbmod, toInt64_of_lt (by omega) (by omega)]

/-- The sign of the delay compares the two times. -/
theorem startAt_eq (fuel : Nat) (h : Near s.time t) :
    startAt fuel s e t =
      if s.queued e then .ok (s, ⟨false, none⟩)
      else if s.time < t then
        enqueue fuel s.time (s.setNextActivation e t) e >>= fun r =>
          .ok (r.1, ⟨false, if r.2 then some (t - s.time) else none⟩)
      else enqueueHead fuel (s.setNextActivation e t) e >>= fun r => .ok (r, ⟨true, none⟩) := by
  have hnat : ((t : Int) - s.time).toNat = t - s.time := by omega
  have hpos : 0 < (t : Int) - s.time ↔ s.time < t := by omega
  simp only [startAt, setNextActivation_time, delay_eq h, hnat, hpos]
  rfl

/-- A start in the future. The timer is started for the first future event. -/
theorem startAt_future (h : s.Represents q) (he : e ∉ q) (ht : t < s.time + 2 ^ 63)
    (hnow : s.time < t) :
    ∃ s', Returns (fun fuel => startAt fuel s e t)
        (s', ⟨false, if ∀ a ∈ q, s.nextActivation_ms a ≤ s.time ∨ t < s.nextActivation_ms a then
          some (t - s.time) else none⟩) ∧
      s'.Represents (insertAt (Function.update s.nextActivation_ms e t) t e q) ∧
      s'.time = s.time ∧ s'.nextActivation_ms = Function.update s.nextActivation_ms e t ∧
      s'.queued = Function.update s.queued e true ∧
      s'.nonePendingHead = (s.setNextActivation e t).pendingAfterInsert q e := by
  have h1 := h.setNextActivation he t
  have hself : (s.setNextActivation e t).nextActivation_ms e = t := by simp
  have hnow1 : (s.setNextActivation e t).time < (s.setNextActivation e t).nextActivation_ms e := by
    rw [hself]
    exact hnow
  rcases enqueue_returns h1.toLinked he (h.outside e he).2 hnow1
    with ⟨s', hret, hl, htime, hact, hqueued, hnext, hcache⟩
  rw [hself] at hret hl
  have hfirst : (∀ a ∈ q, Function.update s.nextActivation_ms e t a ≤ s.time ∨
        t < Function.update s.nextActivation_ms e t a) ↔
      ∀ a ∈ q, s.nextActivation_ms a ≤ s.time ∨ t < s.nextActivation_ms a := by
    refine forall₂_congr fun a ha => ?_
    rw [setNextActivation_of_mem he ha]
  refine ⟨s', ?_, ⟨hl, ?_⟩, htime, hact, hqueued, hcache⟩
  · simp only [startAt_eq _ ⟨by omega, ht⟩, (h.outside e he).1, Bool.false_eq_true, if_false,
      if_pos hnow]
    refine hret.bind ?_
    simp only [decide_eq_true_iff, setNextActivation_time, setNextActivation_nextActivation_ms,
      hfirst]
    exact returns_ok _
  · intro f hf
    have hfe : f ≠ e := fun heq => hf (by simp [insertAt, heq])
    have hfq : f ∉ q := by
      intro hm
      apply hf
      rw [h1.ordered.split (t := t) (le_of_lt hnow)] at hm
      simp only [insertAt, List.mem_append, List.mem_cons] at hm ⊢
      rcases hm with hm | hm
      · exact Or.inl hm
      · exact Or.inr (Or.inr hm)
    constructor
    · rw [hqueued, Function.update_of_ne hfe]
      exact (h.outside f hfq).1
    · rw [hnext f hfe hfq]
      exact (h.outside f hfq).2

theorem insertAt_perm {time : ε → Nat} (h : q = upTo time t q ++ behind time t q) :
    (insertAt time t e q).Perm (e :: q) := by
  have hmid : (upTo time t q ++ e :: behind time t q).Perm
      (e :: (upTo time t q ++ behind time t q)) := List.perm_middle
  rw [← h] at hmid
  exact hmid

private theorem enqueueHead_represents (h : s.Represents q) (he : e ∉ q) (ht : t ≤ s.time) :
    ∃ s', Returns (fun fuel => enqueueHead fuel (s.setNextActivation e t) e) s' ∧
      s'.Represents (e :: q) ∧
      s'.time = s.time ∧ s'.nextActivation_ms = Function.update s.nextActivation_ms e t ∧
      s'.queued = s.queued ∧ s'.nonePendingHead = s.nonePendingHead := by
  have h1 := h.setNextActivation he t
  have hnow : (s.setNextActivation e t).nextActivation_ms e ≤ (s.setNextActivation e t).time := by
    show Function.update s.nextActivation_ms e t e ≤ s.time
    rw [Function.update_self]
    exact ht
  rcases enqueueHead_returns h1.toLinked he hnow with ⟨s', hret, hl, hkept, hcache⟩
  refine ⟨s', hret, ⟨hl, fun f hf => ?_⟩, hkept.time, hkept.nextActivation, hkept.queued, hcache⟩
  have hfq : f ∉ q := fun hm => hf (List.mem_cons_of_mem e hm)
  rw [hkept.queued, hkept.next f hf]
  exact h.outside f hfq

theorem startAt_due (h : s.Represents q) (he : e ∉ q) (hnow : s.time ≤ t + 2 ^ 63)
    (ht : t ≤ s.time) :
    ∃ s', Returns (fun fuel => startAt fuel s e t) (s', ⟨true, none⟩) ∧
      s'.Represents (e :: q) ∧
      s'.time = s.time ∧ s'.nextActivation_ms = Function.update s.nextActivation_ms e t ∧
      s'.queued = s.queued ∧ s'.nonePendingHead = s.nonePendingHead := by
  rcases enqueueHead_represents h he ht with ⟨s', hret, hrest⟩
  refine ⟨s', ?_, hrest⟩
  simp only [startAt_eq _ ⟨hnow, by omega⟩, (h.outside e he).1, Bool.false_eq_true,
    if_false, if_neg (not_lt_of_ge ht)]
  exact hret.bind (returns_ok _)

/-- A start after a time is a start at the end of this time, without a time it is one at once. -/
theorem startIn_eq (fuel : Nat) (ht : t ≠ 0) (hnow : s.time + t < 2 ^ 64) :
    startIn fuel s e t = startAt fuel s e (s.time + t) := by
  simp only [startIn, ne_eq, ht, not_false_eq_true, if_true]
  rw [Nat.mod_eq_of_lt hnow]

theorem startIn_zero (h : s.Represents q) (he : e ∉ q) :
    ∃ s', Returns (fun fuel => startIn fuel s e 0) (s', ⟨true, none⟩) ∧
      s'.Represents (e :: q) ∧
      s'.time = s.time ∧ s'.nextActivation_ms = Function.update s.nextActivation_ms e s.time ∧
      s'.queued = s.queued ∧ s'.nonePendingHead = s.nonePendingHead := by
  rcases enqueueHead_represents h he le_rfl with ⟨s', hret, hrest⟩
  refine ⟨s', ?_, hrest⟩
  simp only [startIn, (h.outside e he).1, ne_eq, not_true_eq_false, Bool.false_eq_true, if_false]
  exact hret.bind (returns_ok _)

theorem dequeue_returns (h : s.Represents q) (e : ε) :
    ∃ s', Returns (fun fuel => dequeue fuel s e) s' ∧ s'.Represents (q.erase e) ∧
      s'.time = s.time ∧ s'.nextActivation_ms = s.nextActivation_ms ∧
      s'.queued = Function.update s.queued e false ∧
      s'.nonePendingHead = s.pendingAfterRemove e := by
  by_cases he : e ∈ q
  · obtain ⟨l, r, hl, rfl, herase⟩ := List.exists_erase_eq he
    rcases dequeue_found h.toLinked with ⟨s', hret, hlinked, htime, hact, hqueued, hself, hnext, hc⟩
    rw [herase]
    refine ⟨s', hret, ⟨hlinked, fun f hf => ?_⟩, htime, hact, hqueued, hc⟩
    by_cases hfe : f = e
    · subst f
      exact ⟨by rw [hqueued, Function.update_self], hself⟩
    · have hfq : f ∉ l ++ e :: r := by
        intro hm
        rw [List.mem_append, List.mem_cons] at hm
        rw [List.mem_append] at hf
        tauto
      rw [hqueued, Function.update_of_ne hfe, hnext f hfq]
      exact h.outside f hfq
  · rcases dequeue_absent h.toLinked he with ⟨s', hret, hlinked, htime, hact, hqueued, hself, hnext, hc⟩
    rw [List.erase_of_not_mem he]
    refine ⟨s', hret, ⟨hlinked, fun f hf => ?_⟩, htime, hact, hqueued, hc⟩
    by_cases hfe : f = e
    · subst f
      exact ⟨by rw [hqueued, Function.update_self], hself⟩
    · rw [hqueued, Function.update_of_ne hfe, hnext f hfe]
      exact h.outside f hf

theorem dequeueAll_represents (h : s.Represents q) :
    ∃ s', Returns (fun fuel => dequeueAll fuel s) s' ∧ s'.Represents [] ∧ s'.time = s.time ∧
      s'.nextActivation_ms = s.nextActivation_ms ∧ s'.nonePendingHead = none := by
  rcases dequeueAll_returns h.toLinked with ⟨s', hret, hl, htime, hact, hcache, hin, hout⟩
  refine ⟨s', hret, ⟨hl, fun f _ => ?_⟩, htime, hact, hcache⟩
  by_cases hf : f ∈ q
  · exact hin f hf
  · rw [(hout f hf).1, (hout f hf).2]
    exact h.outside f hf

theorem readFirstPending_due (h : s.Represents (e :: r)) (hdue : s.nextActivation_ms e ≤ s.time) :
    ∃ s', Returns (fun fuel => readFirstPending fuel s) (s', some e) ∧ s'.Represents r ∧
      s'.time = s.time ∧ s'.nextActivation_ms = s.nextActivation_ms ∧
      s'.queued = Function.update s.queued e false ∧
      s'.nonePendingHead = s.pendingAfterRemove e := by
  rcases takeHead_linked h.toLinked hdue with ⟨s', hret, hl, htime, hact, hqueued, hnext, hcache⟩
  have hhead : s.queueHead = some e := h.chain.1
  refine ⟨s', ?_, ⟨hl, fun f hf => ?_⟩, htime, hact, hqueued, hcache⟩
  · simp only [readFirstPending, hhead, if_pos hdue]
    exact hret.bind (returns_ok _)
  · rw [hqueued, hnext]
    by_cases hfe : f = e
    · subst f
      rw [Function.update_self, Function.update_self]
      exact ⟨rfl, rfl⟩
    · rw [Function.update_of_ne hfe, Function.update_of_ne hfe]
      exact h.outside f fun hm => (List.mem_cons.mp hm).elim hfe hf

theorem readFirstPending_none (h : s.Represents q)
    (hq : ∀ e ∈ q.head?, s.time < s.nextActivation_ms e) :
    Returns (fun fuel => readFirstPending fuel s) (s, none) := by
  have hhead : s.queueHead = q.head? := Chain.head h.chain
  cases hq' : q.head? with
  | none =>
      simp only [readFirstPending, hhead, hq']
      exact returns_ok _
  | some a =>
      have hlt := hq a hq'
      simp only [readFirstPending, hhead, hq', if_neg (not_le_of_gt hlt)]
      exact returns_ok _

private theorem searchFuture_returns {p : Option ε} (h : Chain s.next p l) :
    Returns (fun fuel => searchFuture s fuel p)
      (l.find? fun e => decide (s.time < s.nextActivation_ms e)) := by
  induction l generalizing p with
  | nil =>
      have hp : p = none := h
      subst p
      exact (returns_ok none).step fun _ => rfl
  | cons a l ih =>
      rcases h with ⟨rfl, h⟩
      by_cases ha : s.nextActivation_ms a ≤ s.time
      · have hfind : (a :: l).find? (fun e => decide (s.time < s.nextActivation_ms e)) =
            l.find? fun e => decide (s.time < s.nextActivation_ms e) :=
          List.find?_cons_of_neg (by simpa using ha)
        rw [hfind]
        exact (ih h).step fun fuel => by simp [searchFuture, ha]
      · have hfind : (a :: l).find? (fun e => decide (s.time < s.nextActivation_ms e)) = some a :=
          List.find?_cons_of_pos (by simpa using lt_of_not_ge ha)
        rw [hfind]
        exact (returns_ok (some a)).step fun fuel => by simp [searchFuture, ha]

/-- The search starts at the head, or at the event that the last search left in the cache. -/
theorem getNextStartTime_returns (h : s.Represents (l ++ r))
    (hcache : s.nonePendingHead = none ∧ l = [] ∨
      s.nonePendingHead ≠ none ∧ s.nonePendingHead = r.head?) :
    ∃ found, found = r.find? (fun e => decide (s.time < s.nextActivation_ms e)) ∧
      Returns (fun fuel => getNextStartTime fuel s)
        ({ s with nonePendingHead := found }, (found.map s.nextActivation_ms).getD 0) := by
  have hfirst : (if s.nonePendingHead = none then s.queueHead else s.nonePendingHead) = r.head? := by
    rcases hcache with ⟨hnone, rfl⟩ | ⟨hsome, hhead⟩
    · rw [if_pos hnone]
      exact Chain.head h.chain
    · rw [if_neg hsome, hhead]
  have hloop := searchFuture_returns (Chain.suffix h.chain)
  refine ⟨_, rfl, ?_⟩
  simp only [getNextStartTime, hfirst]
  refine hloop.bind ?_
  cases r.find? fun e => decide (s.time < s.nextActivation_ms e) with
  | none => exact returns_ok _
  | some a => exact returns_ok _

end TaskingFramework.Clock
