import TaskingFramework.Clock.TrustedCalls

/-!
# The clock thread

`clockThread` asks for the next start time, sleeps until then, and signals the scheduler when an
event is pending. It holds `m_mutex` except while it sleeps; other threads start events and wake it
up by `startTimer`. Every action below is one critical section of `timeQueueMutex` or of `m_mutex`,
or the code between two of them. The destructor is left out.
-/

set_option linter.unusedSectionVars false

namespace TaskingFramework

open Foundation

/-- A call of `pthread_cond_timedwait`: the start time it is for, and the two readings of the clock
that its wake-up time is computed from. -/
structure Sleep where
  nextStartTime : Nat
  currentTime : Nat
  begun : Nat
  deriving DecidableEq, Repr

def Sleep.wakeUpTime (sleep : Sleep) : Nat := sleep.begun + (sleep.nextStartTime - sleep.currentTime)

/-- Where the clock thread stands. -/
inductive ClockThreadPc where
  | asking                                           -- before `getNextStartTime`
  | comparing (nextStartTime : Nat)                  -- before `getTime`
  | computing (nextStartTime currentTime : Nat)      -- before `computeAbsoluteWakeUpTime`
  | waiting (sleep : Option Sleep) (signalled : Bool) -- in a wait, `m_mutex` released
  | checking                                         -- before `isPending`
  | signalling                                       -- before `signal` of the scheduler
  deriving DecidableEq, Repr

/-- Where a thread stands that starts an event. -/
inductive StarterPc (ε : Type) where
  | idle
  | signalling (event : ε)    -- the event is due, before `signal` of the scheduler
  | starting (timeSpan : Nat) -- before `startTimer`
  deriving DecidableEq, Repr

/-- The scheduler was signalled while the events of `told` were pending. Those of `missed` became
due after the clock thread looked for pending events and before it asked for the next start time.
Both are not part of the program. -/
structure ClockThread (ε κ : Type) where
  booked : Booked ε
  pc : ClockThreadPc
  starter : κ → StarterPc ε
  told : ε → Bool
  missed : ε → Bool

inductive ClockThreadAction (ε κ : Type) where
  | start (starter : κ) (call : ClockCall ε) (wake : Wake)
  | call (call : ClockCall ε) (answer : ClockAnswer ε)
  | signal (starter : κ)
  | startTimer (starter : κ)
  | getNextStartTime (time : Nat)
  | compare
  | sleep
  | wakeUp
  | isPending
  | signalScheduler

namespace ClockThreadPc

/-- The clock thread will look for pending events at the time `t` or before. -/
def Heads (pc : ClockThreadPc) (now t : Nat) : Prop :=
  match pc with
  | .asking => now < t
  | .comparing n => n ≠ 0 ∧ n ≤ t
  | .computing n _ => n ≤ t
  | .waiting sleep signalled => signalled = true ∨ ∃ a, sleep = some a ∧ a.nextStartTime ≤ t
  | .checking | .signalling => True

/-- The two readings of the clock that a sleep is computed from are in order. -/
def Timed (pc : ClockThreadPc) (now : Nat) : Prop :=
  match pc with
  | .computing n t => t < n ∧ t ≤ now
  | .waiting (some a) _ => a.currentTime < a.nextStartTime ∧ a.currentTime ≤ a.begun
  | _ => True

variable {pc : ClockThreadPc} {now later t u : Nat}

private theorem Heads.mono (h : pc.Heads now t) (htu : t ≤ u) : pc.Heads now u := by
  cases pc with
  | asking => exact lt_of_lt_of_le h htu
  | comparing n => exact ⟨h.1, h.2.trans htu⟩
  | computing n => exact le_trans h htu
  | waiting =>
      rcases h with h | ⟨a, ha, hle⟩
      · exact Or.inl h
      · exact Or.inr ⟨a, ha, hle.trans htu⟩
  | checking | signalling => trivial

private theorem Heads.advance (h : pc.Heads now t) (later : Nat) :
    pc.Heads later t ∨ pc = .asking ∧ now < t ∧ t ≤ later := by
  cases pc with
  | asking =>
      by_cases hlater : later < t
      · exact Or.inl hlater
      · exact Or.inr ⟨rfl, h, Nat.le_of_not_lt hlater⟩
  | comparing | computing | waiting | checking | signalling => exact Or.inl h

private theorem Timed.advance (h : pc.Timed now) (hle : now ≤ later) : pc.Timed later := by
  cases pc with
  | computing => exact ⟨h.1, h.2.trans hle⟩
  | waiting sleep =>
      cases sleep with
      | none | some => exact h
  | asking | comparing | checking | signalling => exact h

end ClockThreadPc

namespace ClockThread

variable {ε κ : Type} [DecidableEq ε] [DecidableEq κ]

def opened (time : Nat) : ClockThread ε κ :=
  ⟨Booked.opened time, .asking, fun _ => .idle, fun _ => false, fun _ => false⟩

def time (s : ClockThread ε κ) : Nat := s.booked.clock.time

/-- The event stands in the queue and is pending. -/
def isDue (s : ClockThread ε κ) (e : ε) : Bool := s.booked.ledger.any fun p => p.1 = e ∧ p.2 ≤ s.time

/-- The event becomes due by the call while the clock thread stands before `getNextStartTime`. -/
def misses (s : ClockThread ε κ) (e : ε) : ClockCall ε → Bool
  | .advance span => s.pc = .asking ∧ s.booked.ledger.any fun p =>
      p.1 = e ∧ s.time < p.2 ∧ p.2 ≤ s.time + span
  | _ => false

/-- The scheduler is signalled and will read all pending events. -/
def tell (s : ClockThread ε κ) : ClockThread ε κ := { s with told := fun e => s.told e || s.isDue e }

/-- What a start does behind its critical section. -/
def nextStarter (event : ε) (wake : Wake) : StarterPc ε :=
  if wake.signal then .signalling event
  else match wake.startTimer with
    | some timeSpan => .starting timeSpan
    | none => .idle

inductive Step (s : ClockThread ε κ) : ClockThreadAction ε κ → ClockThread ε κ → Prop where
  | start {k : κ} {c : ClockCall ε} {e : ε} {wake : Wake} {b : Booked ε} (hk : s.starter k = .idle)
      (hc : c.started = some e) (hb : s.booked.Step (c, .wake wake) b) :
      Step s (.start k c wake) { s with
        booked := b
        starter := Function.update s.starter k (nextStarter e wake)
        told := Function.update s.told e false
        missed := Function.update s.missed e false }
  | call {c : ClockCall ε} {a : ClockAnswer ε} {b : Booked ε} (hc : c.started = none)
      (hb : s.booked.Step (c, a) b) : Step s (.call c a) { s with
        booked := b
        missed := fun e => s.missed e || s.misses e c }
  | signal {k : κ} {e : ε} (hk : s.starter k = .signalling e) :
      Step s (.signal k) { s.tell with starter := Function.update s.starter k .idle }
  -- `startTimer` gets `m_mutex` only while the clock thread waits
  | startTimer {k : κ} {timeSpan : Nat} {sleep : Option Sleep} {signalled : Bool}
      (hk : s.starter k = .starting timeSpan) (hpc : s.pc = .waiting sleep signalled) :
      Step s (.startTimer k) { s with
        pc := .waiting sleep true
        starter := Function.update s.starter k .idle }
  | getNextStartTime {n : Nat} {b : Booked ε} (hpc : s.pc = .asking)
      (hb : s.booked.Step (.getNextStartTime, .time n) b) :
      Step s (.getNextStartTime n) { s with booked := b, pc := .comparing n }
  | compare {n : Nat} (hpc : s.pc = .comparing n) :
      Step s .compare { s with
        pc := if n = 0 then .waiting none false
          else if s.time < n then .computing n s.time else .checking }
  | sleep {n t : Nat} (hpc : s.pc = .computing n t) :
      Step s .sleep { s with pc := .waiting (some ⟨n, t, s.time⟩) false }
  -- by a signal, by the time-out, or for no reason
  | wakeUp {sleep : Option Sleep} {signalled : Bool} (hpc : s.pc = .waiting sleep signalled) :
      Step s .wakeUp { s with pc := .checking }
  | isPending (hpc : s.pc = .checking) :
      Step s .isPending { s with pc := if s.booked.clock.isPending then .signalling else .asking }
  | signalScheduler (hpc : s.pc = .signalling) : Step s .signalScheduler { s.tell with pc := .asking }

/-- A start does not leave a wrong cache behind. -/
def Leads (s : ClockThread ε κ) : ClockThreadAction ε κ → Prop
  | .start _ c _ => ¬ s.booked.Misleads c
  | _ => True

variable {s s' : ClockThread ε κ} {action : ClockThreadAction ε κ} {c : ClockCall ε} {q : List ε}
  {e : ε} {t u t₀ : Nat} {k : κ} {wake : Wake} {b : Booked ε}

/-- A thread is about to wake the clock thread up. -/
def Starting (s : ClockThread ε κ) : Prop := ∃ k timeSpan, s.starter k = .starting timeSpan

/-- The entry is due, and the scheduler knows of it, is about to, or was not told at all. -/
def Announced (s : ClockThread ε κ) (p : ε × Nat) : Prop :=
  p.2 ≤ s.time ∧ (s.told p.1 = true ∨ s.missed p.1 = true ∨ ∃ k, s.starter k = .signalling p.1)

structure Watched (s : ClockThread ε κ) (q : List ε) : Prop where
  reflects : s.booked.Reflects q
  trusted : s.booked.clock.Trusted q
  noticed : ∀ p ∈ s.booked.ledger, s.Announced p ∨ s.Starting ∨ s.pc.Heads s.time p.2
  timed : s.pc.Timed s.time

private theorem isDue_of_mem {p : ε × Nat} (hp : p ∈ s.booked.ledger) (hdue : p.2 ≤ s.time) :
    s.isDue p.1 = true := by
  apply List.any_eq_true.mpr
  exact ⟨p, hp, by simpa using hdue⟩

private theorem announced_tell {starter : κ → StarterPc ε} {pc : ClockThreadPc} {p : ε × Nat}
    (hp : p ∈ s.booked.ledger)
    (hdue : p.2 ≤ s.time) : Announced { s.tell with starter := starter, pc := pc } p := by
  refine ⟨hdue, Or.inl ?_⟩
  show (s.told p.1 || s.isDue p.1) = true
  rw [isDue_of_mem hp hdue, Bool.or_true]

private theorem Watched.later (h : s.Watched q) (hearlier : ¬ s.booked.FirstUpTo t) :
    s.Starting ∨ s.pc.Heads s.time t := by
  unfold Booked.FirstUpTo at hearlier
  push Not at hearlier
  obtain ⟨p, hp, hlt, hle⟩ := hearlier
  rcases h.noticed p hp with hannounced | hstarting | hheads
  · exact absurd hannounced.1 (Nat.not_le.mpr hlt)
  · exact Or.inl hstarting
  · exact Or.inr (hheads.mono hle)

private theorem record_of_not_started {a : ClockAnswer ε} {ledger : Ledger ε} {now : Nat} {p : ε × Nat}
    (hc : c.started = none) (hp : p ∈ ledger.record now c a) : p ∈ ledger := by
  cases c with
  | startAt | startIn => simp [ClockCall.started] at hc
  | dequeue => exact List.mem_of_mem_filter hp
  | dequeueAll => simp [Ledger.record] at hp
  | readFirstPending =>
      cases a with
      | event event =>
          cases event with
          | none => exact hp
          | some => exact List.mem_of_mem_filter hp
      | nothing | wake | time => exact hp
  | getNextStartTime | advance => exact hp

private theorem misleads_of_not_started (hc : c.started = none) {m : Booked ε} : ¬ m.Misleads c := by
  cases c with
  | startAt | startIn => simp [ClockCall.started] at hc
  | dequeue | dequeueAll | readFirstPending | getNextStartTime | advance => exact id

private theorem Watched.start (h : s.Watched q) (hk : s.starter k = .idle) (hc : c.started = some e)
    (hb : s.booked.Step (c, .wake wake) b) (hm : ¬ s.booked.Misleads c) :
    ∃ q', Watched { s with
      booked := b
      starter := Function.update s.starter k (nextStarter e wake)
      told := Function.update s.told e false
      missed := Function.update s.missed e false } q' := by
  obtain ⟨⟨q', hreflects, htrusted⟩, hledger, htime⟩ := h.reflects.step_trusted h.trusted hm hb
  obtain ⟨t, hrecord, hnew, hsignal, htimer⟩ := h.reflects.started hc hb
  rw [Booked.span_of_started hc, Nat.add_zero] at htime
  rw [hrecord] at hledger
  have hkeep : ∀ j, s.starter j ≠ .idle →
      Function.update s.starter k (nextStarter e wake) j = s.starter j := by
    intro j hj
    have hjk : j ≠ k := fun heq => hj (heq ▸ hk)
    exact Function.update_of_ne hjk _ _
  have hstarting : s.Starting → ∃ j timeSpan,
      Function.update s.starter k (nextStarter e wake) j = .starting timeSpan := by
    rintro ⟨j, timeSpan, hj⟩
    exact ⟨j, timeSpan, (hkeep j (by simp [hj])).trans hj⟩
  refine ⟨q', hreflects, htrusted, ?_, h.timed.advance (le_of_eq htime.symm)⟩
  intro p hp
  simp only [Announced, Starting, time, htime]
  rw [show b.ledger = _ from hledger] at hp
  rcases List.mem_append.mp hp with hp | hp
  · -- an older entry
    have hpe : p.1 ≠ e := fun heq => hnew (heq ▸ List.mem_map_of_mem hp)
    rw [Function.update_of_ne hpe, Function.update_of_ne hpe]
    rcases h.noticed p hp with ⟨hdue, htold | hmissed | ⟨j, hj⟩⟩ | hs | hheads
    · exact Or.inl ⟨hdue, Or.inl htold⟩
    · exact Or.inl ⟨hdue, Or.inr (Or.inl hmissed)⟩
    · exact Or.inl ⟨hdue, Or.inr (Or.inr ⟨j, (hkeep j (by simp [hj])).trans hj⟩)⟩
    · exact Or.inr (Or.inl (hstarting hs))
    · exact Or.inr (Or.inr hheads)
  · -- the new entry
    obtain rfl := List.mem_singleton.mp hp
    by_cases hdue : t ≤ s.time
    · have hself : nextStarter e wake = .signalling e := by
        rw [nextStarter, if_pos (hsignal.mpr hdue)]
      exact Or.inl ⟨hdue, Or.inr (Or.inr ⟨k, by rw [Function.update_self, hself]⟩)⟩
    · by_cases hfirst : s.booked.FirstUpTo t
      · obtain ⟨delay, hdelay⟩ := htimer.mpr ⟨Nat.lt_of_not_le hdue, hfirst⟩
        have hself : nextStarter e wake = .starting delay := by
          rw [nextStarter, if_neg (fun hs => hdue (hsignal.mp hs)), hdelay]
        exact Or.inr (Or.inl ⟨k, delay, by rw [Function.update_self, hself]⟩)
      · rcases h.later hfirst with hs | hheads
        · exact Or.inr (Or.inl (hstarting hs))
        · exact Or.inr (Or.inr hheads)

private theorem Watched.call {a : ClockAnswer ε} (h : s.Watched q) (hc : c.started = none)
    (hb : s.booked.Step (c, a) b) :
    ∃ q', Watched { s with booked := b, missed := fun e => s.missed e || s.misses e c } q' := by
  obtain ⟨⟨q', hreflects, htrusted⟩, hledger, htime⟩ :=
    h.reflects.step_trusted h.trusted (misleads_of_not_started hc) hb
  have hle : s.time ≤ b.clock.time := by
    rw [htime]
    exact Nat.le_add_right _ _
  refine ⟨q', hreflects, htrusted, ?_, h.timed.advance hle⟩
  intro p hp
  rw [show b.ledger = _ from hledger] at hp
  have hp := record_of_not_started hc hp
  rcases h.noticed p hp with ⟨hdue, htold | hmissed | hsignalling⟩ | hs | hheads
  · exact Or.inl ⟨hdue.trans hle, Or.inl htold⟩
  · exact Or.inl ⟨hdue.trans hle, Or.inr (Or.inl (by simp [hmissed]))⟩
  · exact Or.inl ⟨hdue.trans hle, Or.inr (Or.inr hsignalling)⟩
  · exact Or.inr (Or.inl hs)
  · rcases hheads.advance b.clock.time with hheads | ⟨hpc, hlt, hdue⟩
    · exact Or.inr (Or.inr hheads)
    · -- the event becomes due unseen
      have hmisses : s.misses p.1 c = true := by
        rw [htime] at hdue
        cases c with
        | advance span =>
            apply decide_eq_true
            refine ⟨hpc, List.any_eq_true.mpr ⟨p, hp, ?_⟩⟩
            simpa using ⟨hlt, hdue⟩
        | _ => exact absurd hdue (Nat.not_le.mpr hlt)
      exact Or.inl ⟨hdue, Or.inr (Or.inl (by simp [hmisses]))⟩

private theorem Watched.move {pc : ClockThreadPc} (h : s.Watched q)
    (hheads : ∀ p ∈ s.booked.ledger, s.pc.Heads s.time p.2 → s.Announced p ∨ pc.Heads s.time p.2)
    (htimed : pc.Timed s.time) : Watched { s with pc := pc } q := by
  refine ⟨h.reflects, h.trusted, ?_, htimed⟩
  intro p hp
  rcases h.noticed p hp with hannounced | hs | hold
  · exact Or.inl hannounced
  · exact Or.inr (Or.inl hs)
  · rcases hheads p hp hold with hannounced | hnew
    · exact Or.inl hannounced
    · exact Or.inr (Or.inr hnew)

private theorem Watched.signal (h : s.Watched q) (hk : s.starter k = .signalling e) :
    Watched { s.tell with starter := Function.update s.starter k .idle } q := by
  refine ⟨h.reflects, h.trusted, ?_, h.timed⟩
  intro p hp
  have hkeep : ∀ j, (∀ f, s.starter j ≠ .signalling f) →
      Function.update s.starter k .idle j = s.starter j := by
    intro j hj
    have hjk : j ≠ k := fun heq => hj e (heq ▸ hk)
    exact Function.update_of_ne hjk _ _
  rcases h.noticed p hp with hannounced | ⟨j, timeSpan, hj⟩ | hheads
  · exact Or.inl (announced_tell hp hannounced.1)
  · exact Or.inr (Or.inl ⟨j, timeSpan, (hkeep j (by simp [hj])).trans hj⟩)
  · exact Or.inr (Or.inr hheads)

private theorem Watched.startTimer {sleep : Option Sleep} {signalled : Bool} (h : s.Watched q) (k : κ)
    (hpc : s.pc = .waiting sleep signalled) :
    Watched { s with
      pc := .waiting sleep true
      starter := Function.update s.starter k .idle } q := by
  have htimed := h.timed
  rw [hpc] at htimed
  refine ⟨h.reflects, h.trusted, fun p _ => Or.inr (Or.inr (Or.inl rfl)), ?_⟩
  cases sleep with
  | none | some => exact htimed

private theorem Watched.getNextStartTime {n : Nat} (h : s.Watched q) (hpc : s.pc = .asking)
    (hb : s.booked.Step (.getNextStartTime, .time n) b) :
    ∃ q', Watched { s with booked := b, pc := .comparing n } q' := by
  obtain ⟨⟨q', hreflects, htrusted⟩, hledger, htime⟩ := h.reflects.step_trusted h.trusted id hb
  obtain ⟨_, hfirst⟩ := h.reflects.nextStartTime h.trusted hb
  have htime : b.clock.time = s.time := htime
  refine ⟨q', hreflects, htrusted, ?_, trivial⟩
  intro p hp
  rw [show b.ledger = _ from hledger] at hp
  have hp : p ∈ s.booked.ledger := hp
  simp only [Announced, time, htime]
  rcases h.noticed p hp with hannounced | hs | hheads
  · exact Or.inl hannounced
  · exact Or.inr (Or.inl hs)
  · rw [hpc] at hheads
    exact Or.inr (Or.inr (hfirst p hp hheads))

private theorem Watched.compare {n : Nat} (h : s.Watched q) (hpc : s.pc = .comparing n) :
    Watched { s with
      pc := if n = 0 then .waiting none false
        else if s.time < n then .computing n s.time else .checking } q := by
  apply h.move
  · intro p _ hheads
    rw [hpc] at hheads
    obtain ⟨hn, hle⟩ := hheads
    rw [if_neg hn]
    by_cases hlt : s.time < n
    · rw [if_pos hlt]
      exact Or.inr hle
    · rw [if_neg hlt]
      exact Or.inr trivial
  · by_cases hn : n = 0
    · rw [if_pos hn]
      trivial
    · by_cases hlt : s.time < n
      · rw [if_neg hn, if_pos hlt]
        exact ⟨hlt, le_rfl⟩
      · rw [if_neg hn, if_neg hlt]
        trivial

private theorem Watched.sleep {n : Nat} (h : s.Watched q) (hpc : s.pc = .computing n t) :
    Watched { s with pc := .waiting (some ⟨n, t, s.time⟩) false } q := by
  apply h.move
  · intro p _ hheads
    rw [hpc] at hheads
    exact Or.inr (Or.inr ⟨_, rfl, hheads⟩)
  · have htimed := h.timed
    rw [hpc] at htimed
    exact htimed

private theorem Watched.wakeUp (h : s.Watched q) : Watched { s with pc := .checking } q := by
  apply h.move
  · intro _ _ _
    exact Or.inr trivial
  · trivial

private theorem Watched.isPending (h : s.Watched q) :
    Watched { s with pc := if s.booked.clock.isPending then .signalling else .asking } q := by
  by_cases hpending : s.booked.clock.isPending = true
  · rw [if_pos hpending]
    exact h.move (fun _ _ _ => Or.inr trivial) (by trivial)
  · rw [if_neg hpending]
    apply h.move _ (by trivial)
    intro p hp _
    refine Or.inr (Nat.lt_of_not_le fun hdue => hpending ?_)
    exact h.reflects.isPending_iff.mpr ⟨p, hp, hdue⟩

private theorem Watched.signalScheduler (h : s.Watched q) :
    Watched { s.tell with pc := .asking } q := by
  refine ⟨h.reflects, h.trusted, ?_, trivial⟩
  intro p hp
  by_cases hdue : p.2 ≤ s.time
  · exact Or.inl (announced_tell hp hdue)
  · exact Or.inr (Or.inr (Nat.lt_of_not_le hdue))

private theorem Watched.step (h : s.Watched q) (hstep : s.Step action s') (hleads : s.Leads action) :
    ∃ q', s'.Watched q' := by
  cases hstep with
  | start hk hc hb => exact h.start hk hc hb hleads
  | call hc hb => exact h.call hc hb
  | signal hk => exact ⟨q, h.signal hk⟩
  | startTimer _ hpc => exact ⟨q, h.startTimer _ hpc⟩
  | getNextStartTime hpc hb => exact h.getNextStartTime hpc hb
  | compare hpc => exact ⟨q, h.compare hpc⟩
  | sleep hpc => exact ⟨q, h.sleep hpc⟩
  | wakeUp => exact ⟨q, h.wakeUp⟩
  | isPending => exact ⟨q, h.isPending⟩
  | signalScheduler => exact ⟨q, h.signalScheduler⟩

/-- A start, after which the clock thread is asked to sleep for it. -/
private def startedTen : Booked Nat :=
  ⟨reached (Clock.empty 0) (Clock.enqueue 1 0 ((Clock.empty 0).setNextActivation 0 10) 0), [(0, 10)]⟩

private def searchedTen : Booked Nat :=
  ⟨reached startedTen.clock (startedTen.clock.getNextStartTime 2), [(0, 10)]⟩

private theorem step_startedTen :
    (Booked.opened 0 : Booked Nat).Step (.startAt 0 10, .wake ⟨false, some 10⟩) startedTen :=
  Booked.step_of_call (by decide) (returns_of_add 1 fun fuel => by
    rw [Clock.call_startAt _ rfl (by decide) (by decide)]
    rfl)

private theorem not_misleads_ten :
    ¬ (Booked.opened 0 : Booked Nat).Misleads (.startAt 0 10) := by decide

private theorem step_searchedTen : startedTen.Step (.getNextStartTime, .time 10) searchedTen :=
  Booked.step_of_call (by decide) (returns_of_add 2 fun fuel => rfl)

private def advancedTen : Booked Nat := ⟨{ searchedTen.clock with time := 10 }, [(0, 10)]⟩

private def searchedLate : Booked Nat :=
  ⟨reached advancedTen.clock (advancedTen.clock.getNextStartTime 3), [(0, 10)]⟩

private theorem step_advancedTen : searchedTen.Step (.advance 10, .nothing) advancedTen :=
  Booked.step_of_call (by decide) (returns_ok _)

private theorem step_searchedLate : advancedTen.Step (.getNextStartTime, .time 0) searchedLate :=
  Booked.step_of_call (by decide) (returns_of_add 3 fun fuel => rfl)

/-- The event becomes due behind `isPending` and is no future event for `getNextStartTime`: the
clock thread waits without a time, and nobody was told. -/
theorem run_misses_ten : ∃ (s : ClockThread Nat Unit) (l : List (ClockThreadAction Nat Unit)),
    Run (fun s a s' => Step s a s' ∧ s.Leads a) (opened 0) l s ∧ s.pc = .waiting none false ∧
    (∀ k, s.starter k = .idle) ∧ (0, 10) ∈ s.booked.ledger ∧ s.time = 10 ∧ s.told 0 = false ∧
        s.missed 0 = true := by
  have hwoken : Run (fun s a s' => Step s a s' ∧ s.Leads a) (opened 0 : ClockThread Nat Unit) _ _ :=
    (((((Run.start.next ⟨.start (k := ()) rfl rfl step_startedTen, not_misleads_ten⟩).next
      ⟨.getNextStartTime rfl step_searchedTen, trivial⟩).next ⟨.compare rfl, trivial⟩).next
      ⟨.sleep rfl, trivial⟩).next ⟨.startTimer (k := ()) rfl rfl, trivial⟩).next ⟨.wakeUp rfl, trivial⟩
  have hlate := ((hwoken.next ⟨.isPending rfl, trivial⟩).next
    ⟨.call rfl step_advancedTen, trivial⟩).next
    ⟨.getNextStartTime rfl step_searchedLate, trivial⟩
  exact ⟨_, _, hlate.next ⟨.compare rfl, trivial⟩, rfl, fun _ => rfl, List.mem_singleton_self _,
    rfl, rfl, rfl⟩

end ClockThread

end TaskingFramework
