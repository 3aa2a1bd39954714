import TaskingFramework.Clock.QueueOrder
import TaskingFramework.Clock.Steady
import TaskingFramework.Event.Event

/-!
# Start times of 64 bits

The delay of a start is a difference of two signed times, and a start after a time adds without a
check. A time that is half the range away from the current time is taken for one on the other side
of it, and a sum outside the range for a time in the past. Starts that are read rightly keep the due
events in front of the others, whatever the times are.
-/

set_option linter.unusedSectionVars false

namespace TaskingFramework

open Foundation

variable {ε π θ : Type} [DecidableEq ε] [DecidableEq π] [DecidableEq θ]

namespace Clock

variable {s s' : Clock ε} {q : List ε} {e : ε} {t fuel : Nat} {wake : Wake}

/-- The event is at the head and the scheduler is signalled for a time that is not in the future; for
another one the event is queued. -/
structure ReadsStart (s : Clock ε) (q : List ε) (e : ε) (t : Nat) (s' : Clock ε) (wake : Wake) :
    Prop where
  due_iff : wake.signal = true ∧ Chain s'.next s'.queueHead (e :: q) ↔ t ≤ s.time
  future : s.time < t → wake.signal = false ∧ s'.queued e = true ∧
    ∃ l r, q = l ++ r ∧ Chain s'.next s'.queueHead (l ++ e :: r)
  time : s'.nextActivation_ms e = t

private theorem startAt_signal (hqueued : s.queued e = false)
    (h : startAt fuel s e t = .ok (s', wake)) :
    wake.signal = false ↔ 0 < toInt64 (toInt64 t - toInt64 s.time) := by
  unfold startAt at h
  simp only [hqueued, Bool.false_eq_true, if_false] at h
  split at h
  next hdelay =>
    obtain ⟨_, _, h⟩ := bind_eq_ok.mp h
    obtain ⟨_, rfl⟩ := Prod.mk.inj (Except.ok.inj h)
    exact iff_of_true rfl hdelay
  next hdelay =>
    obtain ⟨_, _, h⟩ := bind_eq_ok.mp h
    obtain ⟨_, rfl⟩ := Prod.mk.inj (Except.ok.inj h)
    exact iff_of_false nofun hdelay

private theorem delay_pos_iff {now : Nat} (ht : t < 2 ^ 64) (hnow : now < 2 ^ 64) :
    0 < toInt64 (toInt64 t - toInt64 now) ↔ now < t ∧ t < now + 2 ^ 63 ∨ t + 2 ^ 63 < now := by
  have hbmod : toInt64 (toInt64 t - toInt64 now) = toInt64 ((t : Int) - now) := by
    simp only [toInt64, Int.bmod_sub_bmod, Int.sub_bmod_bmod]
  rw [hbmod, toInt64, Int.bmod_def]
  split <;> omega

private theorem startAt_ahead (fuel : Nat) (hqueued : s.queued e = false) (ht : t < 2 ^ 64)
    (hnow : s.time < 2 ^ 64) (hahead : s.time + 2 ^ 63 ≤ t) :
    startAt fuel s e t =
      enqueueHead fuel (s.setNextActivation e t) e >>= fun r => .ok (r, ⟨true, none⟩) := by
  have hdelay : ¬ 0 < toInt64 (toInt64 t - toInt64 s.time) := by
    rw [delay_pos_iff ht hnow]
    omega
  unfold startAt
  simp only [hqueued, Bool.false_eq_true, if_false]
  split
  next hpos => exact absurd hpos hdelay
  next => rfl

private theorem ReadsStart.near (hqueued : s.queued e = false) (ht : t < 2 ^ 64)
    (hnow : s.time < 2 ^ 64)
    (hret : Returns (fun fuel => startAt fuel s e t) (s', wake)) (h : s.ReadsStart q e t s' wake) :
    Near s.time t := by
  obtain ⟨fuel, hfuel⟩ := hret.exists
  have hsignal := startAt_signal hqueued hfuel
  rw [delay_pos_iff ht hnow] at hsignal
  by_cases hdue : t ≤ s.time
  · have hsig := (h.due_iff.mpr hdue).1
    rw [hsig] at hsignal
    refine ⟨?_, by omega⟩
    by_contra hfar
    exact Bool.noConfusion (hsignal.mpr (Or.inr (by omega)))
  · refine ⟨by omega, ?_⟩
    have hsig := hsignal.mp (h.future (by omega)).1
    omega

private theorem Represents.readsStart_iff (h : s.Represents q) (he : e ∉ q) (ht : t < 2 ^ 64)
    (hnow : s.time < 2 ^ 64) :
    (∃ s' wake, Returns (fun fuel => startAt fuel s e t) (s', wake) ∧ s.ReadsStart q e t s' wake) ↔
      Near s.time t := by
  constructor
  · rintro ⟨s', wake, hret, hreads⟩
    exact hreads.near (h.outside e he).1 ht hnow hret
  · intro hnear
    by_cases hdue : t ≤ s.time
    · obtain ⟨s', hret, hrep, _, hact, _⟩ := startAt_due h he hnear.1 hdue
      refine ⟨s', _, hret, ⟨iff_of_true ⟨rfl, hrep.chain⟩ hdue, fun hlt => by omega, ?_⟩⟩
      rw [hact, Function.update_self]
    · have hlt : s.time < t := Nat.lt_of_not_le hdue
      obtain ⟨s', hret, hrep, _, hact, hqueued, _⟩ := startAt_future h he hnear.2 hlt
      refine ⟨s', _, hret, ⟨iff_of_false nofun hdue, fun _ => ⟨rfl, ?_, ?_⟩, ?_⟩⟩
      · rw [hqueued, Function.update_self]
      · exact ⟨_, _, ((h.setNextActivation he t).ordered).split hlt.le, hrep.chain⟩
      · rw [hact, Function.update_self]

end Clock

namespace Events

variable {s s' : Events ε π θ} {q : List ε} {e : ε} {delay fuel : Nat}

private theorem trigger_eq (hconfigured : (s.event e).configured = false)
    (hqueued : s.clock.queued e = false) (hdelay : 0 < delay) (fuel : Nat) :
    s.trigger fuel e delay =
      s.clock.startAt fuel e ((s.clock.time + delay) % 2 ^ 64) >>= fun r =>
        .ok ({ s with clock := r.1 }.emit (.wake r.2)) := by
  have hpos : delay ≠ 0 := hdelay.ne'
  simp only [trigger, hconfigured, Bool.false_eq_true, if_false, dequeueQueued, hqueued, ok_bind, hpos,
    startIn, Clock.startIn, ne_eq, not_false_eq_true, if_true]
  rfl

private theorem trigger_iff (h : s.clock.Represents q) (he : e ∉ q)
    (hconfigured : (s.event e).configured = false) (hdelay : 0 < delay) (hmax : delay < 2 ^ 64)
    (hnow : s.clock.time < 2 ^ 64) :
    (∃ s' wake, Returns (fun fuel => s.trigger fuel e delay) s' ∧
        s'.trace = s.trace ++ [(s.clock.time, .wake wake)] ∧ wake.signal = false ∧
        ∀ T, s.clock.time ≤ T → T < s.clock.time + delay → ¬ s'.clock.nextActivation_ms e ≤ T) ↔
      delay < 2 ^ 63 ∧ s.clock.time + delay < 2 ^ 64 := by
  have hqueued := (h.outside e he).1
  have heq := trigger_eq hconfigured hqueued hdelay
  constructor
  · rintro ⟨s', wake, hret, htrace, hsignal, hlater⟩
    obtain ⟨fuel, hfuel⟩ := hret.exists
    rw [heq fuel] at hfuel
    obtain ⟨⟨clock, wake'⟩, hstart, hfuel⟩ := bind_eq_ok.mp hfuel
    obtain rfl := Except.ok.inj hfuel
    obtain rfl : wake' = wake := by
      have hlast := List.append_cancel_left htrace
      injection hlast with hpair
      injection hpair with _ hwake
      injection hwake
    have hpositive := (Clock.startAt_signal hqueued hstart).mp hsignal
    rw [Clock.delay_pos_iff (Nat.mod_lt _ (by decide)) hnow] at hpositive
    have htime : clock.nextActivation_ms e = (s.clock.time + delay) % 2 ^ 64 := by
      rw [Clock.startAt_times hqueued hstart, Function.update_self]
    have hdue := hlater s.clock.time le_rfl (by omega)
    change ¬ clock.nextActivation_ms e ≤ s.clock.time at hdue
    rw [htime] at hdue
    by_cases hsum : s.clock.time + delay < 2 ^ 64
    · rw [Nat.mod_eq_of_lt hsum] at hpositive
      omega
    · omega
  · rintro ⟨hhalf, hsum⟩
    obtain ⟨clock, wake, hret, hsignal, htime, hact⟩ : ∃ clock wake,
        Returns (fun fuel => s.clock.startAt fuel e (s.clock.time + delay)) (clock, wake) ∧
          wake.signal = false ∧ clock.time = s.clock.time ∧
          clock.nextActivation_ms e = s.clock.time + delay := by
      obtain ⟨clock, hret, _, htime, hact, _⟩ := Clock.startAt_future h he
        (Nat.add_lt_add_left hhalf s.clock.time) (Nat.lt_add_of_pos_right hdelay)
      exact ⟨clock, _, hret, rfl, htime, by rw [hact, Function.update_self]⟩
    have htrigger := (hret.bind (g := fun _ r => .ok ({ s with clock := r.1 }.emit (.wake r.2)))
      (returns_ok _)).congr (g := fun fuel => s.trigger fuel e delay) fun fuel => by
        rw [heq fuel, Nat.mod_eq_of_lt hsum]
    refine ⟨_, wake, htrigger, ?_, hsignal, ?_⟩
    · simp only [emit, htime]
    · intro T _ hT
      change ¬ clock.nextActivation_ms e ≤ T
      omega

end Events

namespace Booked

open Clock

variable {m : Booked ε} {q : List ε} {t₀ : Nat} {l : List (ClockCall ε × ClockAnswer ε)}

private theorem run_readable (ht : t₀ < 2 ^ 64) (h : Run (Calls Readable call) (opened t₀) l m) :
    m.clock.time < 2 ^ 64 ∧ ∃ q, m.clock.Reflects m.ledger q := by
  apply run_calls_invariant
    (I := fun m : Booked ε => m.clock.time < 2 ^ 64 ∧ ∃ q, m.clock.Reflects m.ledger q) _ _ h
  · rintro m c ⟨hnow, q, hq⟩ hc
    obtain ⟨a, s', q', hret, hrep, htime⟩ := exists_call hq hc
    refine ⟨a, ⟨s', m.ledger.record m.clock.time c a⟩, ⟨hc, hret.bind (returns_ok _)⟩, ?_, q', hrep⟩
    show s'.time < 2 ^ 64
    rw [htime]
    cases c with
    | advance span => exact hc
    | _ => exact hnow
  · exact ⟨ht, [], reflects_empty t₀⟩

/-- In every run whose starts are read rightly no event that is not due stands in front of a due one,
and a start or a trigger of a further event is read rightly exactly when its time is. -/
theorem run_startTimes (ht : t₀ < 2 ^ 64) (h : Run (Calls Readable call) (opened t₀) l m) :
    ∃ q, Chain m.clock.next m.clock.queueHead q ∧ q.Perm m.ledger.events ∧
      (q.Pairwise fun a b =>
        m.clock.nextActivation_ms b ≤ m.clock.time → m.clock.nextActivation_ms a ≤ m.clock.time) ∧
      (∀ e t, e ∉ q → t < 2 ^ 64 →
        ((∃ s' wake, Returns (fun fuel => m.clock.startAt fuel e t) (s', wake) ∧
          m.clock.ReadsStart q e t s' wake) ↔ Near m.clock.time t)) ∧
      ∀ (s : Events ε π θ) e delay, s.clock = m.clock → (s.event e).configured = false → e ∉ q →
        0 < delay → delay < 2 ^ 64 →
        ((∃ s' wake, Returns (fun fuel => s.trigger fuel e delay) s' ∧
          s'.trace = s.trace ++ [(s.clock.time, .wake wake)] ∧ wake.signal = false ∧
          ∀ T, s.clock.time ≤ T → T < s.clock.time + delay → ¬ s'.clock.nextActivation_ms e ≤ T) ↔
        delay < 2 ^ 63 ∧ s.clock.time + delay < 2 ^ 64) := by
  obtain ⟨hnow, q, hq⟩ := run_readable ht h
  refine ⟨q, hq.chain, hq.visits, ?_, ?_, ?_⟩
  · apply hq.ordered.imp
    intro a b hab hb
    by_contra ha
    have := hab (Nat.lt_of_not_le ha)
    omega
  · intro e t he htime
    exact hq.toRepresents.readsStart_iff he htime hnow
  · intro s e delay hclock hconfigured he hdelay hmax
    exact Events.trigger_iff (hclock ▸ hq.toRepresents) he hconfigured hdelay hmax (hclock ▸ hnow)

theorem run_startTimes_high : ∃ (m : Booked Nat) (q : List Nat),
    Run (Calls Readable call) (opened (2 ^ 63))
      [(.startAt 7 (2 ^ 63 + 10), .wake ⟨false, some 10⟩)] m ∧
    Chain m.clock.next m.clock.queueHead q ∧ q.Perm m.ledger.events := by
  let s₁ := reached (empty (2 ^ 63))
    (enqueue 1 (2 ^ 63) ((empty (2 ^ 63)).setNextActivation 7 (2 ^ 63 + 10)) 7)
  have hcall : Returns (fun fuel => (empty (2 ^ 63)).call fuel (.startAt 7 (2 ^ 63 + 10)))
      (s₁, .wake ⟨false, some 10⟩) := returns_of_add 1 fun fuel => by
    rw [call_startAt _ rfl (by decide) (by decide)]
    rfl
  have h₁ : Calls Readable call (opened (2 ^ 63) : Booked Nat)
      (.startAt 7 (2 ^ 63 + 10), .wake ⟨false, some 10⟩) ⟨s₁, [(7, 2 ^ 63 + 10)]⟩ :=
    ⟨⟨List.not_mem_nil, by decide, by decide⟩, hcall.bind (returns_ok _)⟩
  obtain ⟨q, hchain, hperm, _⟩ := run_startTimes (π := Unit) (θ := Unit) (by decide) (Run.start.next h₁)
  exact ⟨_, q, Run.start.next h₁, hchain, hperm⟩

/-- At the time 0 a start for half the range goes to the head of the queue, with a signal, and an
event that becomes due at 5 stands behind it. At the time 5 the longest delays are over at once. -/
theorem startTimes_misread :
    (∃ (s₁ s₂ : Clock Nat), Returns (fun fuel => (empty 0).startAt fuel 1 5) (s₁, ⟨false, some 5⟩) ∧
      Returns (fun fuel => s₁.startAt fuel 0 (2 ^ 63)) (s₂, ⟨true, none⟩) ∧
      Chain s₂.next s₂.queueHead [0, 1] ∧ s₂.nextActivation_ms 0 = 2 ^ 63 ∧
      s₂.nextActivation_ms 1 = 5 ∧ ({ s₂ with time := 5 } : Clock Nat).isPending = false) ∧
    ∃ s : Events Nat Unit Unit,
      Returns (fun fuel => (Events.init 5 fun _ => 0).trigger fuel 0 (2 ^ 64 - 5)) s ∧
      s.clock.queueHead = some 0 ∧ s.clock.nextActivation_ms 0 = 0 ∧ s.clock.isPending = true := by
  constructor
  · let s₁ := reached (empty 0) (enqueue 1 0 ((empty 0).setNextActivation 1 5) 1)
    have hfirst : Returns (fun fuel => (empty 0).startAt fuel 1 5) (s₁, ⟨false, some 5⟩) :=
      returns_of_add 1 fun fuel => by
        rw [startAt_eq _ (by decide)]
        rfl
    have hsecond : Returns (fun fuel => s₁.startAt fuel 0 (2 ^ 63)) (_, ⟨true, none⟩) :=
      returns_of_add 3 fun fuel => by
        rw [startAt_ahead _ rfl (by decide) (by decide) (by decide)]
        rfl
    exact ⟨s₁, _, hfirst, hsecond, ⟨rfl, rfl, rfl⟩, rfl, rfl, rfl⟩
  · have hsum : (5 + (2 ^ 64 - 5)) % 2 ^ 64 = 0 := by decide
    have htrigger : Returns (fun fuel =>
        (Events.init 5 fun _ => 0 : Events Nat Unit Unit).trigger fuel 0 (2 ^ 64 - 5)) _ :=
      returns_of_add 1 fun fuel => by
        rw [Events.trigger_eq rfl rfl (by decide), show (Events.init 5 fun _ => 0 :
          Events Nat Unit Unit).clock.time = 5 from rfl, hsum, startAt_eq _ (by decide)]
        rfl
    exact ⟨_, htrigger, rfl, rfl, rfl⟩

end Booked

end TaskingFramework
