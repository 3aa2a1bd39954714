import TaskingFramework.Clock.Linked

/-!
# The queue at any time

The order of the queue needs times below the sign bit, but the links do not: whatever the times are,
an operation of the clock that returns keeps the queue a chain, and brings no other event into it than
the one that it starts.
-/

set_option linter.unusedSectionVars false

namespace TaskingFramework.Clock

open Foundation

variable {ε : Type} [DecidableEq ε] {s t : Clock ε} {q r : List ε} {e f p : ε} {fuel now time : Nat}

/-- The events of `q` are linked from the head of the queue on. -/
def Queue (s : Clock ε) (q : List ε) : Prop := Chain s.next s.queueHead q

theorem queue_empty (time : Nat) : (empty time : Clock ε).Queue [] := rfl

/-- The links from the head on. -/
structure SameLinks (s t : Clock ε) : Prop where
  next : t.next = s.next
  head : t.queueHead = s.queueHead

private theorem Queue.congr (h : s.Queue q) (hsame : SameLinks s t) : t.Queue q := by
  unfold Queue
  rw [hsame.next, hsame.head]
  exact h

private theorem Queue.push (h : s.Queue q) (he : e ∉ q) : (s.setHead e).Queue (e :: q) :=
    Chain.push h he

private theorem Queue.setNext (h : s.Queue q) (he : e ∉ q) (n : Option ε) : (s.setNext e n).Queue q :=
  Chain.update h he n

private theorem correctPrevious_links {value : Option ε} {continues : Clock ε → ε → Bool} {p : Option ε}
    (h : correctPrevious value continues fuel p s = .ok t) : SameLinks s t := by
  induction fuel generalizing p s with
  | zero => exact absurd h (by simp [correctPrevious])
  | succ fuel ih =>
      cases p with
      | none =>
          obtain rfl : s = t := Except.ok.inj h
          exact ⟨rfl, rfl⟩
      | some e =>
          rw [correctPrevious] at h
          split at h
          · have hsame := ih h
            exact ⟨hsame.next, hsame.head⟩
          · obtain rfl : s = t := Except.ok.inj h
            exact ⟨rfl, rfl⟩

private theorem Queue.linkBehind (h : s.Queue q) (he : e ∉ q) :
    ∃ r, (s.linkBehind e p).Queue r ∧ r ⊆ e :: q := by
  by_cases hp : p ∈ q
  · obtain ⟨l, m, rfl⟩ := List.append_of_mem hp
    refine ⟨l ++ p :: e :: m, Chain.insert h he, ?_⟩
    intro f hf
    simp only [List.mem_append, List.mem_cons] at hf ⊢
    tauto
  · exact ⟨q, (h.setNext he (s.next p)).setNext hp (some e), List.subset_cons_self e q⟩

private theorem correctBehind_links (h : correctBehind fuel s e = .ok t) : SameLinks s t := by
  unfold correctBehind at h
  split at h
  · obtain rfl := Except.ok.inj h
    exact ⟨rfl, rfl⟩
  · exact correctPrevious_links h

private theorem Queue.enqueue {first : Bool} (h : s.Queue q) (he : e ∉ q)
    (hret : enqueue fuel now s e = .ok (t, first)) : ∃ r, t.Queue r ∧ r ⊆ e :: q := by
  have h' : ((s.setQueued e true).setNext e none).Queue q := h.setNext he none
  unfold Clock.enqueue at hret
  simp only at hret
  split at hret
  · obtain ⟨rfl, _⟩ := Prod.mk.inj (Except.ok.inj hret)
    refine ⟨[e], ⟨rfl, ?_⟩, by simp⟩
    simp [setPrevious, Clock.setNext]
  · obtain ⟨found, hsearch, hret⟩ := bind_eq_ok.mp hret
    cases found with
    | none =>
        obtain ⟨u, hfront, hret⟩ := bind_eq_ok.mp hret
        obtain ⟨rfl, _⟩ := Prod.mk.inj (Except.ok.inj hret)
        obtain ⟨v, hcorrect, hfront⟩ := bind_eq_ok.mp hfront
        obtain rfl := Except.ok.inj hfront
        exact ⟨e :: q, (h'.congr (correctPrevious_links hcorrect)).push he, List.Subset.refl _⟩
    | some p =>
        obtain ⟨u, hbehind, hret⟩ := bind_eq_ok.mp hret
        obtain ⟨rfl, _⟩ := Prod.mk.inj (Except.ok.inj hret)
        obtain ⟨r, hr, hsub⟩ := h'.linkBehind (p := p) he
        exact ⟨r, hr.congr (correctBehind_links hbehind), hsub⟩

private theorem Queue.enqueueHead (h : s.Queue q) (he : e ∉ q) (hret : enqueueHead fuel s e = .ok t) :
    t.Queue (e :: q) := by
  obtain ⟨u, hcorrect, hret⟩ := bind_eq_ok.mp hret
  obtain rfl := Except.ok.inj hret
  have hu : SameLinks s u := by
    unfold correctHead at hcorrect
    split at hcorrect
    · split at hcorrect
      · exact correctPrevious_links hcorrect
      · obtain rfl := Except.ok.inj hcorrect
        exact ⟨rfl, rfl⟩
    · obtain rfl := Except.ok.inj hcorrect
      exact ⟨rfl, rfl⟩
  exact (h.congr hu).push he

/-- A queued event is not started again; another one joins the queue. -/
theorem Queue.startAt {wake : Wake} (h : s.Queue q) (he : e ∉ q)
    (hret : startAt fuel s e time = .ok (t, wake)) : ∃ r, t.Queue r ∧ r ⊆ e :: q := by
  unfold Clock.startAt at hret
  split at hret
  · obtain ⟨rfl, _⟩ := Prod.mk.inj (Except.ok.inj hret)
    exact ⟨q, h, List.subset_cons_self e q⟩
  · have h' : (s.setNextActivation e time).Queue q := h
    simp only at hret
    split at hret
    · obtain ⟨⟨u, first⟩, henqueue, hret⟩ := bind_eq_ok.mp hret
      obtain ⟨rfl, _⟩ := Prod.mk.inj (Except.ok.inj hret)
      exact h'.enqueue he henqueue
    · obtain ⟨u, henqueue, hret⟩ := bind_eq_ok.mp hret
      obtain ⟨rfl, _⟩ := Prod.mk.inj (Except.ok.inj hret)
      exact ⟨e :: q, h'.enqueueHead he henqueue, List.Subset.refl _⟩

theorem Queue.startIn {wake : Wake} (h : s.Queue q) (he : e ∉ q)
    (hret : startIn fuel s e time = .ok (t, wake)) : ∃ r, t.Queue r ∧ r ⊆ e :: q := by
  unfold Clock.startIn at hret
  split at hret
  · exact h.startAt he hret
  · split at hret
    · obtain ⟨rfl, _⟩ := Prod.mk.inj (Except.ok.inj hret)
      exact ⟨q, h, List.subset_cons_self e q⟩
    · have h' : (s.setNextActivation e s.time).Queue q := h
      obtain ⟨u, henqueue, hret⟩ := bind_eq_ok.mp hret
      obtain ⟨rfl, _⟩ := Prod.mk.inj (Except.ok.inj hret)
      exact ⟨e :: q, h'.enqueueHead he henqueue, List.Subset.refl _⟩

private theorem searchEvent_split {n previous b : Option ε} {found : Bool} (h : Chain s.next n q)
    (hret : searchEvent s e fuel n previous = .ok (found, b)) :
    found = false ∧ e ∉ q ∨ found = true ∧ ∃ l m, q = l ++ e :: m ∧ e ∉ l ∧
      b = l.getLast?.or previous := by
  induction fuel generalizing n previous q with
  | zero => exact absurd hret (by simp [searchEvent])
  | succ fuel ih =>
      cases q with
      | nil =>
          obtain rfl : n = none := h
          obtain ⟨rfl, _⟩ := Prod.mk.inj (Except.ok.inj hret)
          exact Or.inl ⟨rfl, List.not_mem_nil⟩
      | cons a q =>
          obtain ⟨rfl, hq⟩ := h
          rw [searchEvent] at hret
          by_cases ha : a = e
          · subst ha
            rw [if_pos rfl] at hret
            obtain ⟨rfl, rfl⟩ := Prod.mk.inj (Except.ok.inj hret)
            exact Or.inr ⟨rfl, [], q, rfl, List.not_mem_nil, rfl⟩
          · rw [if_neg ha] at hret
            rcases ih hq hret with ⟨rfl, he⟩ | ⟨rfl, l, m, rfl, hl, hb⟩
            · exact Or.inl ⟨rfl, by simp [he, Ne.symm ha]⟩
            · refine Or.inr ⟨rfl, a :: l, m, rfl, by simp [hl, Ne.symm ha], ?_⟩
              rw [hb, List.getLast?_cons]
              cases l.getLast? <;> rfl

private theorem Queue.first_or {b : Option ε} {l m : List ε} (h : s.Queue (l ++ e :: m)) (hl : e ∉ l)
    (hb : b = l.getLast?) :
    s.queueHead = some e ∧ l = [] ∨ s.queueHead ≠ some e ∧ ∃ k p, l = k ++ [p] ∧ b = some p := by
  have hhead : s.queueHead = (l ++ e :: m).head? := Chain.head h
  rcases List.eq_nil_or_concat l with rfl | ⟨k, p, hlast⟩
  · exact Or.inl ⟨hhead, rfl⟩
  · obtain rfl : l = k ++ [p] := by simpa using hlast
    refine Or.inr ⟨?_, k, p, rfl, by simpa using hb⟩
    intro hfirst
    apply hl
    rw [hhead] at hfirst
    cases k with
    | nil => exact List.mem_singleton.mpr (Option.some.inj hfirst).symm
    | cons a k => exact Option.some.inj hfirst ▸ List.mem_cons_self

private theorem Queue.unlinkTail {b : Option ε} {l m : List ε} (h : s.Queue (l ++ e :: m)) (hl : e ∉ l)
    (hb : b = l.getLast?) (hret : unlinkTail s e b = .ok t) : t.Queue l := by
  unfold Clock.unlinkTail at hret
  rcases h.first_or hl hb with ⟨hfirst, rfl⟩ | ⟨hfirst, k, p, rfl, rfl⟩
  · rw [if_pos hfirst] at hret
    obtain rfl := Except.ok.inj hret
    rfl
  · rw [if_neg hfirst] at hret
    obtain rfl := Except.ok.inj hret
    have hsegment := Chain.prefix h
    have hnd : (k ++ [p]).Nodup := (List.nodup_append.mp (Chain.nodup h)).1
    have hp : p ∉ k := fun hmem => (List.nodup_append.mp hnd).2.2 p hmem p List.mem_cons_self rfl
    exact hsegment.redirect hp none

private theorem Queue.bypass {b : Option ε} {l m : List ε} (h : s.Queue (l ++ e :: m)) (hl : e ∉ l)
    (hb : b = l.getLast?) (hret : bypass s e b = .ok t) : t.Queue (l ++ m) := by
  unfold Clock.bypass at hret
  rcases h.first_or hl hb with ⟨hfirst, rfl⟩ | ⟨hfirst, k, p, rfl, rfl⟩
  · rw [if_pos hfirst] at hret
    obtain rfl := Except.ok.inj hret
    exact h.2
  · rw [if_neg hfirst] at hret
    obtain rfl := Except.ok.inj hret
    have h' : Chain s.next s.queueHead (k ++ p :: e :: m) := by simpa [Queue] using h
    have hchain := h'.bypass
    show Chain (Function.update s.next p (s.next e)) s.queueHead (k ++ [p] ++ m)
    rw [List.append_assoc]
    exact hchain

private theorem Queue.unlink {b : Option ε} {l m : List ε} (h : s.Queue (l ++ e :: m)) (hl : e ∉ l)
    (hb : b = l.getLast?) (hret : unlink fuel s e b = .ok t) : ∃ r, t.Queue r ∧ r ⊆ l ++ m := by
  unfold Clock.unlink at hret
  split at hret
  · exact ⟨l, h.unlinkTail hl hb hret, List.subset_append_left l m⟩
  · obtain ⟨u, hbypass, hret⟩ := bind_eq_ok.mp hret
    obtain ⟨n, hn, hret⟩ := bind_eq_ok.mp hret
    have hlinks : SameLinks u t := by
      split at hret
      · exact correctPrevious_links hret
      · obtain rfl := Except.ok.inj hret
        exact ⟨rfl, rfl⟩
    exact ⟨l ++ m, (h.bypass hl hb hbypass).congr hlinks, List.Subset.refl _⟩

/-- An event that was dequeued is not in the queue. -/
theorem Queue.dequeue (h : s.Queue q) (hret : dequeue fuel s e = .ok t) :
    ∃ r, t.Queue r ∧ e ∉ r ∧ r ⊆ q := by
  let v : Clock ε := { s with
    nonePendingHead := if s.nonePendingHead = some e then s.next e else s.nonePendingHead }
  have hv : v.Queue q := h
  obtain ⟨⟨found, b⟩, hsearch, hret⟩ := bind_eq_ok.mp hret
  rcases searchEvent_split (s := v) hv hsearch with ⟨rfl, he⟩ | ⟨rfl, l, m, rfl, hl, hb⟩
  · obtain rfl := Except.ok.inj hret
    exact ⟨q, hv.setNext he none, he, List.Subset.refl q⟩
  · obtain ⟨u, hunlink, hret⟩ := bind_eq_ok.mp hret
    obtain rfl := Except.ok.inj hret
    have hnd : (l ++ e :: m).Nodup := Chain.nodup h
    have hm : e ∉ m := (List.nodup_cons.mp (List.nodup_append.mp hnd).2.1).1
    obtain ⟨r, hr, hsub⟩ := hv.unlink hl (by simpa using hb) hunlink
    have he : e ∉ r := by
      intro he
      rcases List.mem_append.mp (hsub he) with he | he
      · exact hl he
      · exact hm he
    refine ⟨r, hr.setNext he none, he, fun f hf => ?_⟩
    have hmem := hsub hf
    simp only [List.mem_append, List.mem_cons] at hmem ⊢
    tauto

theorem Queue.readFirstPending {found : Option ε} (h : s.Queue q)
    (hret : readFirstPending fuel s = .ok (t, found)) :
    found = none ∧ t.Queue q ∨ ∃ e r, found = some e ∧ q = e :: r ∧ t.Queue r := by
  unfold Clock.readFirstPending at hret
  cases q with
  | nil =>
      have hhead : s.queueHead = none := h
      simp only [hhead] at hret
      obtain ⟨rfl, rfl⟩ := Prod.mk.inj (Except.ok.inj hret)
      exact Or.inl ⟨rfl, h⟩
  | cons e q =>
      have hhead : s.queueHead = some e := h.1
      simp only [hhead] at hret
      split at hret
      · obtain ⟨u, hcorrect, hret⟩ := bind_eq_ok.mp hret
        obtain ⟨rfl, rfl⟩ := Prod.mk.inj (Except.ok.inj hret)
        have he : e ∉ q := (List.nodup_cons.mp (Chain.nodup h)).1
        have htaken : (s.takeHead e).Queue q := Chain.update h.2 he none
        refine Or.inr ⟨e, q, rfl, rfl, htaken.congr ?_⟩
        unfold correctFirst at hcorrect
        split at hcorrect
        · obtain rfl := Except.ok.inj hcorrect
          exact ⟨rfl, rfl⟩
        · split at hcorrect
          · exact correctPrevious_links hcorrect
          · obtain rfl := Except.ok.inj hcorrect
            exact ⟨rfl, rfl⟩
      · obtain ⟨rfl, rfl⟩ := Prod.mk.inj (Except.ok.inj hret)
        exact Or.inl ⟨rfl, h⟩

end TaskingFramework.Clock
