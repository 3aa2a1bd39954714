import TaskingFramework.Clock.Ledger

/-!
# The order of the clock queue

Every admissible call of the clock returns and keeps the queue in agreement with the ledger. So in
every run the due events stand in front, the future events behind them sorted by their times, and
those with one time in the order of their starts.
-/

set_option linter.unusedSectionVars false

namespace TaskingFramework

open Foundation

variable {ε : Type} [DecidableEq ε]

namespace Clock

variable {s : Clock ε} {q : List ε} {ledger : Ledger ε} {e : ε} {t : Nat}

private theorem Reflects.startAt (h : s.Reflects ledger q) (he : e ∉ ledger.events)
    (hnear : Near s.time t) :
    ∃ s' wake q', Returns (fun fuel => Clock.startAt fuel s e t) (s', wake) ∧
      s'.Reflects (ledger.start e t) q' ∧ s'.time = s.time := by
  by_cases hle : t ≤ s.time
  · obtain ⟨s', hret, hrep, htime, hact, _, hcache⟩ :=
      startAt_due h.toRepresents (h.notMem he) hnear.1 hle
    exact ⟨s', _, _, hret, h.start_due he hle hrep htime hact hcache, htime⟩
  · have hlt : s.time < t := lt_of_not_ge hle
    obtain ⟨s', hret, hrep, htime, hact, _, hcache⟩ :=
      startAt_future h.toRepresents (h.notMem he) hnear.2 hlt
    exact ⟨s', _, _, hret, h.start_future he hlt hrep htime hact hcache, htime⟩

private theorem Reflects.startIn (h : s.Reflects ledger q) (he : e ∉ ledger.events) (ht : t < 2 ^ 63)
    (hsum : s.time + t < 2 ^ 64) :
    ∃ s' wake q', Returns (fun fuel => Clock.startIn fuel s e t) (s', wake) ∧
      s'.Reflects (ledger.start e (s.time + t)) q' ∧ s'.time = s.time := by
  by_cases ht0 : t = 0
  · subst t
    obtain ⟨s', hret, hrep, htime, hact, _, hcache⟩ := startIn_zero h.toRepresents (h.notMem he)
    exact ⟨s', _, _, hret, h.start_due he le_rfl hrep htime hact hcache, htime⟩
  · obtain ⟨s', wake, q', hret, hrest⟩ := h.startAt he ⟨by omega, Nat.add_lt_add_left ht _⟩
    exact ⟨s', wake, q', hret.congr fun fuel => (startIn_eq fuel ht0 hsum).symm, hrest⟩

private theorem Reflects.dequeue (h : s.Reflects ledger q) (e : ε) :
    ∃ s', Returns (fun fuel => Clock.dequeue fuel s e) s' ∧
      s'.Reflects (ledger.remove e) (q.erase e) ∧ s'.time = s.time := by
  obtain ⟨s', hret, hrep, htime, hact, _, hcache⟩ := dequeue_returns h.toRepresents e
  exact ⟨s', hret, h.remove hrep htime hact hcache, htime⟩

private theorem Reflects.dequeueAll (h : s.Reflects ledger q) :
    ∃ s', Returns (fun fuel => Clock.dequeueAll fuel s) s' ∧ s'.Reflects [] [] ∧
      s'.time = s.time := by
  obtain ⟨s', hret, hrep, htime, _, hcache⟩ := dequeueAll_represents h.toRepresents
  refine ⟨s', hret, ⟨hrep, List.Perm.refl _, by simp, fun _ _ => rfl, ?_⟩, htime⟩
  intro c hc
  rw [hcache] at hc
  simp at hc

/-- The event that is read: a due one, or none as all events are in the future. -/
def ReadsFrom (s : Clock ε) (q : List ε) : Option ε → Prop
  | none => ∀ e ∈ q, s.time < s.nextActivation_ms e
  | some e => e ∈ q ∧ s.nextActivation_ms e ≤ s.time

/-- What is left of the queue. -/
def leftover (q : List ε) : Option ε → List ε
  | none => q
  | some e => q.erase e

private theorem Reflects.readFirstPending (h : s.Reflects ledger q) :
    ∃ s' event, Returns (fun fuel => Clock.readFirstPending fuel s) (s', event) ∧
      s.ReadsFrom q event ∧ s'.time = s.time ∧
      s'.Reflects (ledger.record s.time .readFirstPending (.event event)) (leftover q event) := by
  cases q with
  | nil =>
      have hret := readFirstPending_none h.toRepresents (by simp)
      exact ⟨s, none, hret, by simp [ReadsFrom], rfl, h⟩
  | cons a q =>
      by_cases ha : s.nextActivation_ms a ≤ s.time
      · obtain ⟨s', hret, hrep, htime, hact, _, hcache⟩ := readFirstPending_due h.toRepresents ha
        have herase : (a :: q).erase a = q := List.erase_cons_head a q
        exact ⟨s', some a, hret, ⟨List.mem_cons_self, ha⟩, htime,
          h.remove (herase.symm ▸ hrep) htime hact hcache⟩
      · have hlt : s.time < s.nextActivation_ms a := lt_of_not_ge ha
        have hret := readFirstPending_none h.toRepresents (by simpa using hlt)
        refine ⟨s, none, hret, ?_, rfl, h⟩
        intro b hb
        rcases List.mem_cons.mp hb with rfl | hb
        · exact hlt
        · exact lt_of_lt_of_le hlt ((dueOrdered_cons.mp h.ordered).1 b hb hlt)

private theorem Reflects.getNextStartTime (h : s.Reflects ledger q) :
    ∃ s' time, Returns (fun fuel => Clock.getNextStartTime fuel s) (s', time) ∧
      s'.Reflects ledger q ∧ s'.time = s.time := by
  obtain ⟨l, r, rfl, hcache⟩ := h.split_cache
  obtain ⟨found, hfound, hret⟩ := getNextStartTime_returns h.toRepresents hcache
  refine ⟨_, _, hret, ⟨⟨⟨h.chain, h.tail, h.ordered, h.previous⟩, h.outside⟩, h.visits, h.times,
    h.firstStarted, ?_⟩, rfl⟩
  intro c hc
  have hmem : c ∈ r := List.mem_of_find?_eq_some (hfound.symm.trans hc)
  exact List.mem_append_right l hmem

end Clock

namespace Booked

open Clock

variable {m m' m₁ m₂ : Booked ε} {q : List ε} {c : ClockCall ε} {a a₁ a₂ : ClockAnswer ε}
  {t₀ : Nat}

def Reflects (m : Booked ε) (q : List ε) : Prop :=
  m.clock.time < 2 ^ 63 ∧ m.clock.Reflects m.ledger q

theorem step_of_call {s' : Clock ε} (hc : m.Admissible c)
    (h : Returns (fun fuel => m.clock.call fuel c) (s', a)) :
    m.Step (c, a) ⟨s', m.ledger.record m.clock.time c a⟩ :=
  ⟨hc, h.bind (returns_ok _)⟩

/-- Only events that are not in the queue are started, for times that are read rightly. -/
def Readable (m : Booked ε) : ClockCall ε → Prop
  | .startAt event time => event ∉ m.ledger.events ∧ time < 2 ^ 64 ∧ Near m.clock.time time
  | .startIn event time =>
      event ∉ m.ledger.events ∧ time < 2 ^ 63 ∧ m.clock.time + time < 2 ^ 64
  | .advance span => m.clock.time + span < 2 ^ 64
  | _ => True

/-- A call that starts an event for a time that is read rightly returns, like every other call. -/
theorem exists_call (h : m.clock.Reflects m.ledger q) (hc : m.Readable c) :
    ∃ a s' q', Returns (fun fuel => m.clock.call fuel c) (s', a) ∧
      s'.Reflects (m.ledger.record m.clock.time c a) q' ∧
      s'.time = m.clock.time + match c with
        | .advance span => span
        | _ => 0 := by
  cases c with
  | startAt e t =>
      obtain ⟨s', wake, q', hret, hrep, htime⟩ := h.startAt hc.1 hc.2.2
      exact ⟨.wake wake, s', q', hret.bind (returns_ok _), hrep, htime⟩
  | startIn e t =>
      obtain ⟨s', wake, q', hret, hrep, htime⟩ := h.startIn hc.1 hc.2.1 hc.2.2
      exact ⟨.wake wake, s', q', hret.bind (returns_ok _), hrep, htime⟩
  | dequeue e =>
      obtain ⟨s', hret, hrep, htime⟩ := h.dequeue e
      exact ⟨.nothing, s', _, hret.bind (returns_ok _), hrep, htime⟩
  | dequeueAll =>
      obtain ⟨s', hret, hrep, htime⟩ := h.dequeueAll
      exact ⟨.nothing, s', _, hret.bind (returns_ok _), hrep, htime⟩
  | readFirstPending =>
      obtain ⟨s', event, hret, _, htime, hrep⟩ := h.readFirstPending
      exact ⟨.event event, s', _, hret.bind (returns_ok _), hrep, htime⟩
  | getNextStartTime =>
      obtain ⟨s', time, hret, hrep, htime⟩ := h.getNextStartTime
      exact ⟨.time time, s', _, hret.bind (returns_ok _), hrep, htime⟩
  | advance span =>
      exact ⟨.nothing, { m.clock with time := m.clock.time + span }, q, returns_ok _,
        h.advance (Nat.le_add_right _ _), rfl⟩

theorem Admissible.readable (hnow : m.clock.time < 2 ^ 63) (hc : m.Admissible c) : m.Readable c := by
  cases c with
  | startAt e t => exact ⟨hc.1, Nat.lt_trans hc.2 (by decide), near_of_lt hc.2 hnow⟩
  | startIn e t =>
      have ht : t < 2 ^ 63 := Nat.lt_of_le_of_lt (Nat.le_add_left _ _) hc.2
      exact ⟨hc.1, ht, Nat.lt_trans hc.2 (by decide)⟩
  | advance span => exact Nat.lt_trans hc (by decide)
  | dequeue | dequeueAll | readFirstPending | getNextStartTime => trivial

theorem exists_step (h : m.Reflects q) (hc : m.Admissible c) :
    ∃ a m' q', m.Step (c, a) m' ∧ m'.Reflects q' := by
  obtain ⟨hnow, h⟩ := h
  obtain ⟨a, s', q', hret, hrep, htime⟩ := exists_call h (Admissible.readable hnow hc)
  refine ⟨a, _, q', step_of_call hc hret, ?_, hrep⟩
  show s'.time < 2 ^ 63
  rw [htime]
  cases c with
  | advance span => exact hc
  | _ => exact hnow

theorem reflects_opened (ht : t₀ < 2 ^ 63) : (opened t₀ : Booked ε).Reflects [] :=
  ⟨ht, reflects_empty t₀⟩

theorem run_reflects (ht : t₀ < 2 ^ 63) {l : List (ClockCall ε × ClockAnswer ε)}
    (h : Run Step (opened t₀) l m) : ∃ q, m.Reflects q := by
  apply run_calls_invariant (I := fun m : Booked ε => ∃ q, m.Reflects q) _ _ h
  · intro m c ⟨q, hq⟩ hc
    obtain ⟨a, m', q', hstep, hq'⟩ := exists_step hq hc
    exact ⟨a, m', hstep, q', hq'⟩
  · exact ⟨[], reflects_opened ht⟩

/-- The chain from the head, compared with the ledger and the time. -/
structure Ordered (m : Booked ε) (q : List ε) : Prop where
  chain : Chain m.clock.next m.clock.queueHead q
  once : q.Nodup
  visits : q.Perm m.ledger.events
  times : ∀ p ∈ m.ledger, m.clock.nextActivation_ms p.1 = p.2
  dueFirst : q.Pairwise fun a b =>
    m.clock.nextActivation_ms b ≤ m.clock.time → m.clock.nextActivation_ms a ≤ m.clock.time
  sorted : q.Pairwise fun a b => m.clock.time < m.clock.nextActivation_ms a →
    m.clock.time < m.clock.nextActivation_ms b →
    m.clock.nextActivation_ms a ≤ m.clock.nextActivation_ms b
  firstStarted : ∀ T, m.clock.time < T →
    q.filter (fun e => decide (m.clock.nextActivation_ms e = T)) = m.ledger.startedFor T

theorem Reflects.ordered (h : m.Reflects q) : m.Ordered q where
  chain := h.2.chain
  once := h.2.nodup
  visits := h.2.visits
  times := h.2.times
  dueFirst := by
    apply h.2.ordered.imp
    intro a b hab hb
    by_contra ha
    have := hab (lt_of_not_ge ha)
    omega
  sorted := h.2.ordered.imp fun hab ha _ => hab ha
  firstStarted := h.2.firstStarted

private theorem Reflects.reads (h : m.Reflects q) (hstep : m.Step (.readFirstPending, a) m') :
    ∃ event, a = .event event ∧ m.clock.ReadsFrom q event ∧
      Chain m'.clock.next m'.clock.queueHead (leftover q event) := by
  obtain ⟨s', event, hret, hreads, _, hrep⟩ := h.2.readFirstPending
  have hstep' : m.Step (.readFirstPending, .event event) _ :=
    step_of_call trivial (hret.bind (returns_ok _))
  obtain ⟨rfl, rfl⟩ := Calls.unique hstep hstep'
  exact ⟨event, rfl, hreads, hrep.chain⟩

/-- In every run of admissible calls the queue is in order after each of them, every further
admissible call returns, and `readFirstPending` removes the event that it answers. -/
theorem run_ordered (ht : t₀ < 2 ^ 63) {l : List (ClockCall ε × ClockAnswer ε)}
    (h : Run Step (opened t₀) l m) :
    ∃ q, m.Ordered q ∧ (∀ c, m.Admissible c → ∃ a m', m.Step (c, a) m') ∧
      ∀ a m', m.Step (.readFirstPending, a) m' →
        ∃ event, a = .event event ∧ m.clock.ReadsFrom q event ∧
          Chain m'.clock.next m'.clock.queueHead (leftover q event) := by
  obtain ⟨q, hq⟩ := run_reflects ht h
  refine ⟨q, hq.ordered, ?_, ?_⟩
  · intro c hc
    obtain ⟨a, m', _, hstep, _⟩ := exists_step hq hc
    exact ⟨a, m', hstep⟩
  · intro a m' hstep
    exact hq.reads hstep

/-- Two events with the same time: the first started is read first, and only when it is due. -/
theorem run_ordered_two : ∃ (m : Booked Nat) (q : List Nat),
    Run Step (opened 0) [(.startAt 7 10, .wake ⟨false, some 10⟩), (.startAt 3 10, .wake ⟨false, none⟩),
      (.readFirstPending, .event none), (.advance 10, .nothing),
      (.readFirstPending, .event (some 7))] m ∧ m.Ordered q := by
  let s₁ := reached (empty 0) (enqueue 1 0 ((empty 0).setNextActivation 7 10) 7)
  let s₂ := reached s₁ (enqueue 2 0 (s₁.setNextActivation 3 10) 3)
  let s₃ : Clock Nat := { s₂ with time := 10 }
  let s₄ := reached s₃ (s₃.readFirstPending 4)
  have h₁ : (opened 0 : Booked Nat).Step (.startAt 7 10, .wake ⟨false, some 10⟩)
      ⟨s₁, [(7, 10)]⟩ :=
    step_of_call (by decide) (returns_of_add 1 fun fuel => by
      rw [call_startAt _ rfl (by decide) (by decide)]
      rfl)
  have h₂ : (⟨s₁, [(7, 10)]⟩ : Booked Nat).Step (.startAt 3 10, .wake ⟨false, none⟩)
      ⟨s₂, [(7, 10), (3, 10)]⟩ :=
    step_of_call (by decide) (returns_of_add 2 fun fuel => by
      rw [call_startAt _ rfl (by decide) (by decide)]
      rfl)
  have h₃ : (⟨s₂, [(7, 10), (3, 10)]⟩ : Booked Nat).Step (.readFirstPending, .event none)
      ⟨s₂, [(7, 10), (3, 10)]⟩ :=
    step_of_call (by decide) (returns_of_add 0 fun fuel => rfl)
  have h₄ : (⟨s₂, [(7, 10), (3, 10)]⟩ : Booked Nat).Step (.advance 10, .nothing)
      ⟨s₃, [(7, 10), (3, 10)]⟩ :=
    step_of_call (by decide) (returns_of_add 0 fun fuel => rfl)
  have h₅ : (⟨s₃, [(7, 10), (3, 10)]⟩ : Booked Nat).Step (.readFirstPending, .event (some 7))
      ⟨s₄, [(3, 10)]⟩ :=
    step_of_call (by decide) (returns_of_add 3 fun fuel => rfl)
  have hrun := ((((Run.start.next h₁).next h₂).next h₃).next h₄).next h₅
  obtain ⟨q, hq, _⟩ := run_ordered (by decide) hrun
  exact ⟨_, q, hrun, hq⟩

end Booked

end TaskingFramework
