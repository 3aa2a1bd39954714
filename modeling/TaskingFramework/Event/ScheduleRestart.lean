import TaskingFramework.Event.PassPlayback

/-!
# The restart of a schedule

The place in the list survives the stop of the event. The next start goes on behind it, with times
of the period in front of the start, where a new schedule begins with its first trigger.
-/

set_option linter.unusedSectionVars false

namespace TaskingFramework

open Foundation

namespace Playback

open Clock Events

variable {ε π θ : Type} [DecidableEq ε] [DecidableEq π] [DecidableEq θ] {m : Playback ε π θ}
  {s f s' : Events ε π θ} {e : ε} {p : π} {fresh : Schedules π θ} {offsetTime : θ → Nat}
  {period offset span : Nat} {x y : TimedPass θ} {l ts : List θ}

/-- Both states answer the call, and the ticks behind it push the same triggers at the same times. -/
def SamePushes (c : EventCall ε π θ) (period : Nat) (s f : Events ε π θ) : Prop :=
  ∀ spans : List Nat, s.clock.time + spans.sum + period < 2 ^ 63 →
    ∃ (s' f' : Events ε π θ) (m m' : Playback ε π θ), Events.Step s c s' ∧ Events.Step f c f' ∧
      Run Ticks ⟨s', []⟩ spans m ∧ Run Ticks ⟨f', []⟩ spans m' ∧ m.events.pushes = m'.events.pushes

/-- The event plays from `x`, or it was stopped. -/
def Started (offsetTime : θ → Nat) (period : Nat) (fresh : Schedules π θ) (e : ε) (p : π)
    (s : Events ε π θ) (x : TimedPass θ) : Prop :=
  if 0 ≤ x.due offsetTime ∧ x.due offsetTime < period then Playing offsetTime period fresh e p s x
  else s.clock.Represents []

private theorem Started.run (h : Started offsetTime period fresh e p s x)
    (hx : Representable offsetTime period x)
    (hp : 0 < period) (spans : List Nat) (hlast : s.clock.time + spans.sum + period < 2 ^ 63) :
    ∃ m, Run Ticks ⟨s, []⟩ spans m ∧
      (¬ (0 ≤ x.due offsetTime ∧ x.due offsetTime < period) → m.events.pushes = s.pushes) := by
  by_cases hin : 0 ≤ x.due offsetTime ∧ x.due offsetTime < period
  · rw [Started, if_pos hin] at h
    obtain ⟨m, y, hrun, _⟩ := run_playing (m := ⟨s, []⟩) (J := fun _ _ _ => True)
      (fun _ _ _ _ _ _ => trivial) (fun _ _ _ _ _ _ _ _ => trivial) h hx hp spans hlast trivial
    exact ⟨m, hrun, fun hout => absurd hin hout⟩
  · rw [Started, if_neg hin] at h
    obtain ⟨m, hrun, _, hpushes, _⟩ := run_idle (m := ⟨s, []⟩) h spans
    exact ⟨m, hrun, fun _ => hpushes⟩

private theorem Started.tick (h : Started offsetTime period fresh e p s x)
    (hx : Representable offsetTime period x) (hp : 0 < period)
    (hnow : s.clock.time + span + period < 2 ^ 63) :
    ∃ m l, Ticks ⟨s, []⟩ span m ∧ m.events.pushes = s.pushes ++ l ∧
      l.head? = if (0 ≤ x.due offsetTime ∧ x.due offsetTime < period) ∧
          x.due offsetTime ≤ (s.clock.time + span : Nat) then
        some (s.clock.time + span, x.active) else none := by
  by_cases hin : 0 ≤ x.due offsetTime ∧ x.due offsetTime < period
  · rw [Started, if_pos hin] at h
    let J : TimedPass θ → List (Nat × θ) → Prop := fun y pushes => pushes = s.pushes ∧ y = x ∨
      x.due offsetTime ≤ (s.clock.time + span : Nat) ∧
        ∃ l, pushes = s.pushes ++ (s.clock.time + span, x.active) :: l
    have hkeeps : ∀ y l z pushes, TimedPass.Moves offsetTime period y l z →
        y.due offsetTime ≤ (s.clock.time + span : Nat) → J y pushes →
        J z (pushes ++ l.map fun t => (s.clock.time + span, t)) := by
      intro y l z pushes hmoves hdue hJ
      right
      rcases hJ with ⟨rfl, rfl⟩ | ⟨hxdue, k, rfl⟩
      · obtain ⟨g, rfl⟩ := hmoves.head
        exact ⟨hdue, g.map fun t => (s.clock.time + span, t), rfl⟩
      · exact ⟨hxdue, k ++ l.map fun t => (s.clock.time + span, t), by simp⟩
    obtain ⟨m, y, htick, _, _, _, hlater, hJ⟩ :=
      tick_playing (m := ⟨s, []⟩) (J := J) h hx hp hnow (Or.inl ⟨rfl, rfl⟩) hkeeps
    have hlater' : (s.clock.time + span : Nat) < y.due offsetTime := hlater
    rcases hJ with ⟨hpushes, rfl⟩ | ⟨hdue, l, hpushes⟩
    · refine ⟨m, [], htick, hpushes.trans (List.append_nil _).symm, ?_⟩
      rw [if_neg fun hboth => absurd hboth.2 (not_le_of_gt hlater')]
      rfl
    · refine ⟨m, _, htick, hpushes, ?_⟩
      rw [if_pos ⟨hin, hdue⟩]
      rfl
  · rw [Started, if_neg hin] at h
    obtain ⟨m, htick, _, hpushes, _⟩ := tick_idle (m := ⟨s, []⟩) h span
    refine ⟨m, [], htick, hpushes.trans (List.append_nil _).symm, ?_⟩
    rw [if_neg fun hboth => hin hboth.1]
    rfl

/-- No event is queued, and the schedule, once `fresh`, has played up to some place. -/
structure Interrupted (offsetTime : θ → Nat) (fresh : Schedules π θ) (p : π) (s : Events ε π θ)
    (x : TimedPass θ) : Prop where
  represents : s.clock.Represents []
  place : ∃ period, s.schedules.InPass offsetTime period fresh p x
  idle : (fresh.schedule p).activeTrigger = none

private theorem Interrupted.same (h : Interrupted offsetTime fresh p s x) (e : ε) (hend : x.behind = [])
    (hstart : configuredStart s.clock.time period offset < 2 ^ 64) (hperiod : period < 2 ^ 64)
    (fuel : Nat) :
    s.setPeriodicSchedule fuel e period offset p =
      ({ s with schedules := fresh } : Events ε π θ).setPeriodicSchedule fuel e period offset p := by
  obtain ⟨period₁, hat⟩ := h.place
  have hfresh := hat.fresh_lists
  obtain ⟨b, k, hentries⟩ : ∃ b k, x.entries = b :: k :=
    List.exists_cons_of_ne_nil (by simp [TimedPass.entries])
  have hfirst : (fresh.schedule p).triggers = some b := by
    have hchain := hfresh.chain
    rw [hentries] at hchain
    exact hchain.1
  have hsfirst : (s.schedules.schedule p).triggers = some b := hat.triggers.trans hfirst
  have hnext : (s.schedules.schedule p).activeTrigger.bind s.schedules.next = none := by
    rw [hat.bind_next, hend]
    rfl
  have hfnext : (fresh.schedule p).activeTrigger.bind fresh.next = none := by
    rw [h.idle]
    rfl
  have hstep := Schedules.configured_step hnext hsfirst hstart hperiod
  have hfstep := Schedules.configured_step hfnext hfirst hstart hperiod
  rw [hat.lists.offset, hat.frame] at hstep
  rw [hfresh.offset] at hfstep
  dsimp only at hstep hfstep
  rw [hsfirst] at hstep
  rw [hfirst] at hfstep
  rw [setPeriodicSchedule_eq fuel h.represents List.not_mem_nil (by rw [hsfirst]; simp) hstep,
    setPeriodicSchedule_eq (s := { s with schedules := fresh }) fuel h.represents List.not_mem_nil
      (by rw [hfirst]; simp) hfstep]
  rfl

private theorem differs {s' f' : Events ε π θ} {other : Schedules π θ}
    (hs : Started offsetTime period other e p s' x) (hf : Started offsetTime period fresh e p f' y)
    (hx : Representable offsetTime period x)
    (hy : Representable offsetTime period y) (hp : 0 < period) (htime : f'.clock.time = s'.clock.time)
    (hpushes : f'.pushes = s'.pushes) (hactive : x.active ≠ y.active)
    (hnow : s'.clock.time + period < 2 ^ 63) (hxlast : x.due offsetTime + period < 2 ^ 63)
    (hylast : y.due offsetTime + period < 2 ^ 63)
    (hstarts : (0 ≤ x.due offsetTime ∧ x.due offsetTime < period) ∨
      0 ≤ y.due offsetTime ∧ y.due offsetTime < period) :
    ∃ span m m', s'.clock.time + span + period < 2 ^ 63 ∧ Ticks ⟨s', []⟩ span m ∧
      Ticks ⟨f', []⟩ span m' ∧ m.events.pushes ≠ m'.events.pushes := by
  -- the first time at which the restart pushes, or the new start if it does not
  obtain ⟨span, hspan, hfirst⟩ : ∃ span, s'.clock.time + span + period < 2 ^ 63 ∧
      ((0 ≤ x.due offsetTime ∧ x.due offsetTime < period) ∧
          x.due offsetTime ≤ (s'.clock.time + span : Nat) ∨
        ¬ (0 ≤ x.due offsetTime ∧ x.due offsetTime < period) ∧
          (0 ≤ y.due offsetTime ∧ y.due offsetTime < period) ∧
            y.due offsetTime ≤ (s'.clock.time + span : Nat)) := by
    by_cases hin : 0 ≤ x.due offsetTime ∧ x.due offsetTime < period
    · refine ⟨(x.due offsetTime).toNat - s'.clock.time, ?_, Or.inl ⟨hin, ?_⟩⟩
      · omega
      · omega
    · have hyin := hstarts.resolve_left hin
      refine ⟨(y.due offsetTime).toNat - s'.clock.time, ?_, Or.inr ⟨hin, hyin, ?_⟩⟩
      · omega
      · omega
  obtain ⟨m, k, htick, hk, hkhead⟩ := hs.tick hx hp hspan
  rw [← htime] at hspan
  obtain ⟨m', l, htick', hl, hlhead⟩ := hf.tick hy hp hspan
  rw [htime] at hspan hlhead
  refine ⟨span, m, m', hspan, htick, htick', fun heq => ?_⟩
  rw [hk, hl, hpushes] at heq
  have hsame : k = l := List.append_cancel_left heq
  rw [hsame, hlhead] at hkhead
  rcases hfirst with hboth | ⟨hnot, hyin, hydue⟩
  · rw [if_pos hboth] at hkhead
    by_cases hyboth : (0 ≤ y.due offsetTime ∧ y.due offsetTime < period) ∧
        y.due offsetTime ≤ (s'.clock.time + span : Nat)
    · rw [if_pos hyboth] at hkhead
      exact hactive (Prod.mk.inj (Option.some.inj hkhead)).2.symm
    · rw [if_neg hyboth] at hkhead
      exact absurd hkhead.symm (Option.some_ne_none _)
  · rw [if_pos ⟨hyin, hydue⟩, if_neg fun hboth => hnot hboth.1] at hkhead
    exact absurd hkhead (Option.some_ne_none _)

private theorem Interrupted.starts (h : Interrupted offsetTime fresh p s x) (e : ε) (hp : 0 < period)
    (hnow : s.clock.time + period < 2 ^ 63)
    (hlt : ∀ t ∈ x.entries, configuredStart s.clock.time period offset + period + offsetTime t <
      2 ^ 63) :
    ∃ s' f' y z, Events.Step s (.setPeriodicSchedule e period offset p) s' ∧
      Events.Step { s with schedules := fresh } (.setPeriodicSchedule e period offset p) f' ∧
      s'.clock.time = s.clock.time ∧ f'.clock.time = s.clock.time ∧ s'.pushes = s.pushes ∧
      f'.pushes = s.pushes ∧ Representable offsetTime period y ∧ Representable offsetTime period z ∧
      s.schedules.StartsAt p (configuredStart s.clock.time period offset) period x.entries y ∧
      z.entries = x.entries ∧ z.before = [] ∧
      z.base = (configuredStart s.clock.time period offset : Nat) ∧
      Started offsetTime period s.schedules e p s' y ∧ Started offsetTime period fresh e p f' z := by
  obtain ⟨period₁, hat⟩ := h.place
  have hentries : x.entries ≠ [] := by simp [TimedPass.entries]
  have hlt' : ∀ t ∈ x.entries, configuredStart s.clock.time period offset + offsetTime t < 2 ^ 63 := by
    intro t ht
    have hle := hlt t ht
    omega
  have hmem : ∀ b ∈ (s.schedules.schedule p).activeTrigger.bind s.schedules.next, b ∈ x.entries := by
    rw [hat.bind_next]
    intro b hb
    exact List.mem_append_right _ (List.mem_cons_of_mem _ (List.mem_of_mem_head? hb))
  have hend : (fresh.schedule p).activeTrigger.bind fresh.next = none := by
    rw [h.idle]
    rfl
  have hnone : ∀ b ∈ (fresh.schedule p).activeTrigger.bind fresh.next, b ∈ x.entries := by
    rw [hend]
    simp
  obtain ⟨s', y, hset, htime, hpushes, _, hy, hplace, hs'⟩ :=
    starts_at (e := e) h.represents hat.lists hentries hmem hp hnow hlt'
  obtain ⟨f', z, hfset, hftime, hfpushes, _, hz, hfplace, hf'⟩ :=
    starts_at (s := { s with schedules := fresh })
      (e := e) h.represents hat.fresh_lists hentries hnone hp
      hnow hlt'
  obtain ⟨hbefore, hbase⟩ := (hfplace.place.resolve_left fun hnext => by
    rw [show ({ s with schedules := fresh } : Events ε π θ).schedules = fresh from rfl, hend] at hnext
    exact absurd hnext.1.symm (Option.some_ne_none _)).2
  exact ⟨s', f', y, z, hset, hfset, htime, hftime, hpushes, hfpushes, hy, hz, hplace, hfplace.entries,
    hbefore, hbase, hs', hf'⟩

private theorem first_ne {b : θ} {r : List θ} (hnodup : x.entries.Nodup) (hbehind : x.behind = b :: r)
    (hentries : y.entries = x.entries) (hbefore : y.before = []) : b ≠ y.active := by
  rw [TimedPass.entries, TimedPass.entries, hbefore, hbehind, List.nil_append] at hentries
  rw [TimedPass.entries, hbehind] at hnodup
  intro heq
  have hsplit : x.before ++ x.active :: b :: r = (x.before ++ [x.active]) ++ (b :: r) := by simp
  rw [hsplit] at hnodup hentries
  have hhead : (x.before ++ [x.active]).head? = some y.active := by
    have hsome := congrArg List.head? hentries
    rw [List.head?_append_of_ne_nil _ (by simp)] at hsome
    exact hsome.symm
  have hmem := List.mem_of_mem_head? hhead
  exact (List.nodup_append.mp hnodup).2.2 _ hmem b List.mem_cons_self heq.symm

/-- Neither the restart, with the trigger `b` one period early, nor a new start has a time below the
period. -/
def NeitherStarts (offsetTime : θ → Nat) (period start : Nat) (ts : List θ) (b : θ) : Prop :=
  (∀ t ∈ ts, period ≤ start + offsetTime t) ∧ 2 * period ≤ start + offsetTime b

variable {start : Nat}

private theorem not_starts {b : θ} (h : NeitherStarts offsetTime period start x.entries b)
    (hy : y.active = b ∧ y.base = start - period) : ¬ (y.due offsetTime < period) := by
  obtain ⟨rfl, hbase⟩ := hy
  have hle := h.2
  rw [TimedPass.due, hbase]
  omega

private theorem one_starts {b : θ} {z : TimedPass θ}
    (h : ¬ NeitherStarts offsetTime period start x.entries b)
    (hsorted : z.entries.Pairwise fun a b => offsetTime a ≤ offsetTime b) (hb : b ∈ x.entries)
    (hy : y.active = b ∧ y.base = start - period) (hentries : z.entries = x.entries)
    (hbefore : z.before = []) (hbase : z.base = start) :
    (0 ≤ y.due offsetTime ∧ y.due offsetTime < period) ∨
      0 ≤ z.due offsetTime ∧ z.due offsetTime < period := by
  obtain ⟨rfl, hybase⟩ := hy
  have hfirst : ∀ t ∈ x.entries, offsetTime z.active ≤ offsetTime t := by
    intro t ht
    rw [← hentries, TimedPass.entries, hbefore] at ht
    exact TimedPass.active_le hsorted ht
  have hle := hfirst y.active hb
  by_contra hnone
  obtain ⟨hnoty, hnotz⟩ := not_or.mp hnone
  rw [TimedPass.due, hybase] at hnoty
  rw [TimedPass.due, hbase] at hnotz
  apply h
  refine ⟨fun t ht => ?_, ?_⟩
  · have hle' := hfirst t ht
    omega
  · omega

private theorem Interrupted.differs {b : θ} (h : Interrupted offsetTime fresh p s x) (e : ε)
    (hp : 0 < period) (hnow : s.clock.time + period < 2 ^ 63)
    (hlt : ∀ t ∈ x.entries, configuredStart s.clock.time period offset + period + offsetTime t < 2 ^ 63)
    (hb : x.behind.head? = some b) (hnot : ¬ NeitherStarts offsetTime period
      (configuredStart s.clock.time period offset) x.entries b) :
    ∃ s' f' span m m', Events.Step s (.setPeriodicSchedule e period offset p) s' ∧
      Events.Step { s with schedules := fresh } (.setPeriodicSchedule e period offset p) f' ∧
      s.clock.time + span + period < 2 ^ 63 ∧ Ticks ⟨s', []⟩ span m ∧ Ticks ⟨f', []⟩ span m' ∧
      m.events.pushes ≠ m'.events.pushes := by
  obtain ⟨period₁, hat⟩ := h.place
  obtain ⟨s', f', y, z, hset, hfset, htime, hftime, hpushes, hfpushes, hy, hz, hplace, hentries,
    hbefore,
    hbase, hs', hf'⟩ := h.starts e hp hnow hlt
  obtain ⟨r, hbehind⟩ := List.head?_eq_some_iff.mp hb
  have hmem : b ∈ x.entries := by
    rw [TimedPass.entries, hbehind]
    simp
  have hplace' : y.active = b ∧ y.base = configuredStart s.clock.time period offset - period := by
    rcases hplace.place with ⟨hnext, hybase⟩ | ⟨hnone, _⟩
    · rw [hat.bind_next, hb] at hnext
      exact ⟨(Option.some.inj hnext).symm, hybase⟩
    · rw [hat.bind_next, hb] at hnone
      exact absurd hnone (Option.some_ne_none b)
  have hsorted : z.entries.Pairwise fun a b => offsetTime a ≤ offsetTime b := by
    rw [hentries]
    exact hat.lists.sorted
  have hne : y.active ≠ z.active := by
    rw [hplace'.1]
    exact first_ne hat.lists.chain.nodup hbehind hentries hbefore
  have hylast := hlt b hmem
  have hzlast := hlt z.active (hentries ▸ List.mem_append_right _ List.mem_cons_self)
  have hydue : y.due offsetTime + period < 2 ^ 63 := by
    rw [TimedPass.due, hplace'.1, hplace'.2]
    omega
  have hzdue : z.due offsetTime + period < 2 ^ 63 := by
    rw [TimedPass.due, hbase]
    omega
  obtain ⟨span, m, m', hspan, htick, htick', hne'⟩ :=
    Playback.differs hs' hf' hy hz hp (hftime.trans htime.symm) (hfpushes.trans hpushes.symm) hne
      (lt_of_eq_of_lt (congrArg (· + period) htime) hnow) hydue hzdue
      (one_starts hnot hsorted hmem hplace' hentries hbefore hbase)
  rw [htime] at hspan
  exact ⟨s', f', span, m, m', hset, hfset, hspan, htick, htick', hne'⟩

private theorem ticks_unique {m m₁ m₂ : Playback ε π θ} {spans : List Nat} (h₁ : Run Ticks m spans m₁)
    (h₂ : Run Ticks m spans m₂) : m₁ = m₂ := by
  apply h₁.unique _ h₂
  intro a span b c hb hc
  exact hb.unique hc

private theorem Interrupted.samePushes_iff (h : Interrupted offsetTime fresh p s x) (e : ε)
    (hp : 0 < period) (hnow : s.clock.time + period < 2 ^ 63)
    (hlt : ∀ t ∈ x.entries, configuredStart s.clock.time period offset + period + offsetTime t <
      2 ^ 63) :
    SamePushes (.setPeriodicSchedule e period offset p) period s { s with schedules := fresh } ↔
      ∀ b ∈ (s.schedules.schedule p).activeTrigger.bind s.schedules.next,
        NeitherStarts offsetTime period (configuredStart s.clock.time period offset) x.entries b := by
  obtain ⟨period₁, hat⟩ := h.place
  obtain ⟨s', f', y, z, hset, hfset, htime, hftime, hpushes, hfpushes, hy, hz, hplace, hentries,
    hbefore,
    hbase, hs', hf'⟩ := h.starts e hp hnow hlt
  rw [hat.bind_next]
  constructor
  · intro hsame b hb
    by_contra hnot
    obtain ⟨s₁, f₁, span, m₁, m₂, hset₁, hfset₁, hspan, htick, htick', hne⟩ :=
      h.differs e hp hnow hlt hb hnot
    obtain ⟨s₂, f₂, n₁, n₂, hset₂, hfset₂, hrun, hrun', heq⟩ :=
      hsame [span] (by rw [List.sum_singleton]; exact hspan)
    obtain rfl := hset₁.unique hset₂
    obtain rfl := hfset₁.unique hfset₂
    have hrun₁ : Run Ticks ⟨s₁, []⟩ [span] m₁ := Run.start.next htick
    have hrun₂ : Run Ticks ⟨f₁, []⟩ [span] m₂ := Run.start.next htick'
    rw [ticks_unique hrun₁ hrun, ticks_unique hrun₂ hrun'] at hne
    exact hne heq
  · intro hneither spans hlast
    have hlast' : s'.clock.time + spans.sum + period < 2 ^ 63 := by
      rw [htime]
      exact hlast
    obtain ⟨m, hrun, hidle⟩ := hs'.run hy hp spans hlast'
    cases hb : x.behind.head? with
    | none =>
        have hend := List.head?_eq_none_iff.mp hb
        have hstart := hz.high z.active (List.mem_append_right _ List.mem_cons_self)
        have hlt' : configuredStart s.clock.time period offset < 2 ^ 64 := by omega
        have hsame := h.same e hend hlt' (by omega)
        exact ⟨s', s', m, m, hset, hset.congr hsame, hrun, hrun, rfl⟩
    | some b =>
        have hneither := hneither b hb
        have hplace' : y.active = b ∧ y.base = configuredStart s.clock.time period offset - period := by
          rcases hplace.place with ⟨hnext, hybase⟩ | ⟨hnone, _⟩
          · rw [hat.bind_next, hb] at hnext
            exact ⟨(Option.some.inj hnext).symm, hybase⟩
          · rw [hat.bind_next, hb] at hnone
            exact absurd hnone (Option.some_ne_none b)
        have hzactive := hneither.1 z.active (hentries ▸ List.mem_append_right _ List.mem_cons_self)
        have hflast : f'.clock.time + spans.sum + period < 2 ^ 63 := by
          rw [hftime]
          exact hlast
        obtain ⟨m', hrun', hidle'⟩ := hf'.run hz hp spans hflast
        refine ⟨s', f', m, m', hset, hfset, hrun, hrun', ?_⟩
        rw [hidle fun hin => not_starts hneither hplace' hin.2, hidle', hpushes, hfpushes]
        rw [TimedPass.due, hbase]
        omega

variable {t₀ period₁ offset₁ : Nat} {s₁ s₂ : Events ε π θ} {spans : List Nat}

private theorem stop_returns {q : List ε} (hrep : s.clock.Represents q) (hq : q.erase e = []) :
    ∃ s', Events.Step s (.stop e) s' ∧ s'.clock.Represents [] ∧ s'.schedules = s.schedules ∧
      s'.clock.time = s.clock.time := by
  obtain ⟨clock, hret, hclock, htime, _⟩ := dequeue_returns hrep e
  rw [hq] at hclock
  refine ⟨({ s with clock := clock } : Events ε π θ).setEvent e
    { s.event e with configured := false, periodicSchedule := none }, ?_, hclock, rfl, htime⟩
  refine Returns.bind (a := { s with clock := clock }) ?_ (returns_of_add 0 fun fuel => rfl)
  exact hret.bind (returns_ok _)

private theorem Loaded.interrupted (h : Loaded t₀ offsetTime p ts s₁) (hts : ts ≠ []) (hp : 0 < period₁)
    (hset : Events.Step s₁ (.setPeriodicSchedule e period₁ offset₁ p) s₂)
    (hplay : Run Ticks ⟨s₂, []⟩ spans m) (hstop : Events.Step m.events (.stop e) s)
    (hlast : t₀ + spans.sum + period₁ < 2 ^ 63)
    (hlt : ∀ t ∈ ts, configuredStart t₀ period₁ offset₁ + offsetTime t < 2 ^ 63) :
    ∃ x, Interrupted offsetTime s₁.schedules p s x ∧ x.entries.Perm ts := by
  obtain ⟨s', x, hset', htime, _, hperm, _, _, hat, hx, hqueued⟩ :=
    h.startsAt (e := e) hts hp (by omega) hlt
  obtain rfl := hset.unique hset'
  by_cases hin : x.due offsetTime < period₁
  · rw [if_pos hin] at hqueued
    have hlast' : s₂.clock.time + spans.sum + period₁ < 2 ^ 63 := by
      rw [htime]
      exact hlast
    obtain ⟨m', y, hrun, hplaying, _, _, hentries, _⟩ :=
      run_playing (m := ⟨s₂, []⟩) (J := fun _ y _ => y.entries = x.entries) (fun _ _ _ _ _ h => h)
        (fun _ _ _ _ _ hmoves _ h => hmoves.entries_eq.trans h) hqueued hx hp spans hlast' rfl
    obtain rfl := ticks_unique hplay hrun
    obtain ⟨s', hstop', hrep, hschedules, _⟩ :=
      stop_returns (e := e) hplaying.represents (List.erase_cons_head e [])
    obtain rfl := hstop.unique hstop'
    refine ⟨y, ⟨hrep, ⟨period₁, ?_⟩, h.idle⟩, ?_⟩
    · rw [hschedules]
      exact hplaying.schedule
    · rw [hentries]
      exact hperm
  · rw [if_neg hin] at hqueued
    obtain ⟨m', hrun, hidle, _, hschedules, _⟩ := run_idle (m := ⟨s₂, []⟩) hqueued spans
    obtain rfl := ticks_unique hplay hrun
    obtain ⟨s', hstop', hrep, hschedules', _⟩ := stop_returns (e := e) hidle rfl
    obtain rfl := hstop.unique hstop'
    refine ⟨x, ⟨hrep, ⟨period₁, ?_⟩, h.idle⟩, hperm⟩
    rw [hschedules', hschedules]
    exact hat

private theorem Interrupted.wait {n : Playback ε π θ} {waits : List Nat}
    (h : Interrupted offsetTime fresh p s x)
    (hwait : Run Ticks ⟨s, []⟩ waits n) : Interrupted offsetTime fresh p n.events x := by
  obtain ⟨n', hrun, hrep, _, hschedules, _⟩ := run_idle (m := ⟨s, []⟩) h.represents waits
  obtain rfl := ticks_unique hwait hrun
  refine ⟨hrep, ?_, h.idle⟩
  rw [hschedules]
  exact h.place

/-- The additions change the schedules only, whatever the events and the clock are. -/
theorem run_add_transport {a a' : Events ε π θ} (b : Events ε π θ)
    (h : Run Events.Step a (ts.map (.add p)) a') :
    Run Events.Step { b with schedules := a.schedules } (ts.map (.add p))
      { b with schedules := a'.schedules } := by
  induction ts using List.reverseRecOn generalizing a' with
  | nil =>
      rw [← run_nil.mp h]
      exact .start
  | append_singleton ts t ih =>
      rw [List.map_append] at h ⊢
      obtain ⟨a₁, hrun, n, hn⟩ := run_snoc.mp h
      refine (ih hrun).next ⟨n, fun fuel hfuel => ?_⟩
      obtain ⟨schedules, hsort, hret⟩ := bind_eq_ok.mp (hn fuel hfuel)
      simp only [pure_eq_ok, Except.ok.injEq] at hret
      apply bind_eq_ok.mpr
      refine ⟨schedules, hsort, ?_⟩
      rw [← hret]
      rfl

private theorem Loaded.restart_iff {n : Playback ε π θ} {waits : List Nat}
    (h : Loaded t₀ offsetTime p ts s₁) (hp₁ : 0 < period₁) (hp : 0 < period)
    (hset : Events.Step s₁ (.setPeriodicSchedule e period₁ offset₁ p) s₂)
    (hplay : Run Ticks ⟨s₂, []⟩ spans m) (hstop : Events.Step m.events (.stop e) s)
    (hwait : Run Ticks ⟨s, []⟩ waits n)
    (hlast : t₀ + spans.sum + period₁ < 2 ^ 63)
    (hlt : ∀ t ∈ ts, configuredStart t₀ period₁ offset₁ + offsetTime t < 2 ^ 63)
    (hnow : n.events.clock.time + period < 2 ^ 63)
    (hrestart : ∀ t ∈ ts,
      configuredStart n.events.clock.time period offset + period + offsetTime t < 2 ^ 63) :
    SamePushes (.setPeriodicSchedule e period offset p) period n.events
      { n.events with schedules := s₁.schedules } ↔
      ∀ b ∈ (n.events.schedules.schedule p).activeTrigger.bind n.events.schedules.next,
        NeitherStarts offsetTime period (configuredStart n.events.clock.time period offset) ts b := by
  by_cases hts : ts = []
  · subst hts
    obtain ⟨a, hset', hclock, hschedules, _⟩ :=
      start_empty h.represents h.triggers_nil e period₁ offset₁
    obtain rfl := hset.unique hset'
    have hrep : s₂.clock.Represents [] := by
      rw [hclock]
      exact h.represents
    obtain ⟨m', hrun, hidle, _, hsame, _⟩ := run_idle (m := ⟨s₂, []⟩) hrep spans
    obtain rfl := ticks_unique hplay hrun
    obtain ⟨s', hstop', hstopped, hschedules', _⟩ := stop_returns (e := e) hidle rfl
    obtain rfl := hstop.unique hstop'
    obtain ⟨n', hwaits, hwaited, _, hkept, _⟩ := run_idle (m := ⟨s, []⟩) hstopped waits
    obtain rfl := ticks_unique hwait hwaits
    have heq : n.events.schedules = s₁.schedules :=
      hkept.trans ((hschedules'.trans hsame).trans hschedules)
    have hnone : (n.events.schedules.schedule p).triggers = none := by
      rw [heq]
      exact h.triggers_nil
    have hend : (n.events.schedules.schedule p).activeTrigger.bind n.events.schedules.next = none := by
      rw [heq, h.idle]
      rfl
    rw [← heq, hend]
    refine iff_of_true (fun later _ => ?_) (by simp)
    obtain ⟨u, hstep, hclock', _, _⟩ := start_empty hwaited hnone e period offset
    rw [← hclock'] at hwaited
    obtain ⟨v, hrun', _⟩ := run_idle (m := ⟨u, []⟩) hwaited later
    exact ⟨u, u, v, v, hstep, hstep, hrun', hrun', rfl⟩
  · obtain ⟨x, hinterrupted, hperm⟩ := h.interrupted hts hp₁ hset hplay hstop hlast hlt
    have hneither : ∀ b, NeitherStarts offsetTime period
      (configuredStart n.events.clock.time period offset) ts b ↔
        NeitherStarts offsetTime period
            (configuredStart n.events.clock.time period offset) x.entries b := by
      intro b
      simp only [NeitherStarts, hperm.mem_iff]
    simp only [hneither]
    exact (hinterrupted.wait hwait).samePushes_iff e hp hnow fun t ht => hrestart t (hperm.subset ht)

theorem run_restart_iff {f : Events ε π θ} {n : Playback ε π θ} {waits : List Nat}
    (hnodup : ts.Nodup) (hp₁ : 0 < period₁) (hp : 0 < period)
    (hadd : Run Events.Step (Events.init t₀ offsetTime) (ts.map (.add p)) s₁)
    (hset : Events.Step s₁ (.setPeriodicSchedule e period₁ offset₁ p) s₂)
    (hplay : Run Ticks ⟨s₂, []⟩ spans m) (hstop : Events.Step m.events (.stop e) s)
    (hwait : Run Ticks ⟨s, []⟩ waits n)
    (hfresh : Run Events.Step
      { n.events with schedules := (Events.init t₀ offsetTime : Events ε π θ).schedules }
      (ts.map (.add p)) f)
    (hlast : t₀ + spans.sum + period₁ < 2 ^ 63)
    (hlt : ∀ t ∈ ts, configuredStart t₀ period₁ offset₁ + offsetTime t < 2 ^ 63)
    (hnow : n.events.clock.time + period < 2 ^ 63)
    (hrestart : ∀ t ∈ ts,
      configuredStart n.events.clock.time period offset + period + offsetTime t < 2 ^ 63) :
    SamePushes (.setPeriodicSchedule e period offset p) period n.events f ↔
      ∀ b ∈ (n.events.schedules.schedule p).activeTrigger.bind n.events.schedules.next,
        NeitherStarts offsetTime period (configuredStart n.events.clock.time period offset) ts b := by
  rw [Events.run_unique hfresh (run_add_transport n.events hadd)]
  exact (run_add hnodup hadd).restart_iff hp₁ hp hset hplay hstop hwait hlast hlt hnow hrestart

/-- Up to the time 6 at most the first pass is over, with a period of 10. -/
def FirstPasses (now : Nat) (x : TimedPass Nat) : Prop :=
  now ≤ 6 → x.entries = [0, 1] ∧ (x.base = 0 ∨ x.base = 10 ∧ x.before = [])

private theorem FirstPasses.moves {now : Nat} {x y : TimedPass Nat} {l : List Nat}
    (h : FirstPasses now x)
    (hmoves : TimedPass.Moves (3 * · + 2) 10 x l y) (hdue : x.due (3 * · + 2) ≤ now) :
    FirstPasses now y := by
  intro hnow
  obtain ⟨hentries, hbase⟩ := h hnow
  refine ⟨hmoves.entries_eq.trans hentries, ?_⟩
  rw [TimedPass.due] at hdue
  have hzero : x.base = 0 := hbase.resolve_right fun hten => by omega
  cases hmoves with
  | within => exact Or.inl hzero
  | wrap =>
      refine Or.inr ⟨?_, rfl⟩
      show x.base + (10 : Nat) = 10
      omega

private theorem interrupted_twoTriggers : ∃ (s₁ s₂ s : Events Nat Unit Nat) (m : Playback Nat Unit Nat)
    (x : TimedPass Nat), Run Events.Step (Events.init 0 (3 * · + 2)) ([0, 1].map (.add ())) s₁ ∧
      Events.Step s₁ (.setPeriodicSchedule 0 10 0 ()) s₂ ∧ Run Ticks ⟨s₂, []⟩ [6] m ∧
      Events.Step m.events (.stop 0) s ∧ s.clock.time = 6 ∧
      Interrupted (3 * · + 2) s₁.schedules () s x ∧ x.entries = [0, 1] ∧ x.behind = [1] := by
  obtain ⟨a₁, hadd₁, hloaded₁⟩ := (loaded_init : Loaded 0 (3 * · + 2) () []
    (Events.init 0 (3 * · + 2) : Events Nat Unit Nat)).add (t := 0) List.not_mem_nil
  obtain ⟨s₁, hadd₂, hloaded⟩ := hloaded₁.add (t := 1) (by decide)
  have hlt : ∀ t ∈ [0, 1], configuredStart 0 10 0 + (3 * t + 2) < 2 ^ 63 := by decide
  obtain ⟨s₂, x, hset, htime, _, hperm, hbefore, hbase, hat, hx, hqueued⟩ :=
    hloaded.startsAt (e := 0) (List.cons_ne_nil 0 [1]) (by decide) (by decide) hlt
  have hentries : x.entries = [0, 1] := by
    apply List.Perm.eq_of_pairwise _ hat.lists.sorted (by decide) hperm
    intro a b _ _ hab hba
    omega
  have hactive : x.active ∈ [0, 1] := hentries ▸ List.mem_append_right _ List.mem_cons_self
  have hin : x.due (3 * · + 2) < (10 : Nat) := by
    rw [TimedPass.due, hbase]
    simp only [List.mem_cons, List.not_mem_nil, or_false] at hactive
    rcases hactive with heq | heq <;> rw [heq] <;> decide
  rw [if_pos hin] at hqueued
  have hfirst : FirstPasses s₂.clock.time x := fun _ => ⟨hentries, Or.inl hbase⟩
  obtain ⟨m, y, hrun, hplaying, _, hnow, hpasses, hahead⟩ :=
    run_playing (m := ⟨s₂, []⟩) (J := fun now y _ => FirstPasses now y)
      (fun _ _ _ _ hle h hnow => h (hle.trans hnow))
      (fun _ _ _ _ _ hmoves hdue h => h.moves hmoves hdue)
      hqueued hx (by decide) [6] (by rw [htime]; decide) hfirst
  have hsix : m.events.clock.time = 6 := by
    rw [hnow, htime]
    rfl
  have hlater : 6 < y.due (3 * · + 2) := by
    rcases hahead with ⟨rfl, _⟩ | hlater
    · rw [htime] at hsix
      exact absurd hsix (by decide)
    · rw [hsix] at hlater
      exact hlater
  obtain ⟨hyentries, hybase⟩ := hpasses hsix.le
  have hyactive : y.active ∈ [0, 1] := hyentries ▸ List.mem_append_right _ List.mem_cons_self
  obtain ⟨_, hybefore⟩ : y.base = 10 ∧ y.before = [] := by
    apply hybase.resolve_left
    intro hzero
    rw [TimedPass.due, hzero] at hlater
    simp only [List.mem_cons, List.not_mem_nil, or_false] at hyactive
    rcases hyactive with heq | heq <;> rw [heq] at hlater <;> exact absurd hlater (by decide)
  have hsplit := hyentries
  rw [TimedPass.entries, hybefore, List.nil_append] at hsplit
  obtain ⟨s, hstop, hrep, hschedules, hstime⟩ :=
    stop_returns (e := 0) hplaying.represents (List.erase_cons_head 0 [])
  refine ⟨s₁, s₂, s, m, y, (Run.start.next hadd₁).next hadd₂, hset, hrun, hstop, hstime.trans hsix,
    ⟨hrep, ⟨10, ?_⟩, hloaded.idle⟩, hyentries, (List.cons.inj hsplit).2⟩
  rw [hschedules]
  exact hplaying.schedule

theorem run_restart_iff_twoTriggers : ∃ (s₁ s₂ s f : Events Nat Unit Nat) (m n : Playback Nat Unit Nat),
    Run Events.Step (Events.init 0 (3 * · + 2)) ([0, 1].map (.add ())) s₁ ∧
    Events.Step s₁ (.setPeriodicSchedule 0 10 0 ()) s₂ ∧ Run Ticks ⟨s₂, []⟩ [6] m ∧
    Events.Step m.events (.stop 0) s ∧ Run Ticks ⟨s, []⟩ [3] n ∧
    Run Events.Step
      { n.events with schedules := (Events.init 0 (3 * · + 2) : Events Nat Unit Nat).schedules }
      ([0, 1].map (.add ())) f ∧
    (SamePushes (.setPeriodicSchedule 0 10 20 ()) 10 n.events f ↔
      ∀ b ∈ (n.events.schedules.schedule ()).activeTrigger.bind n.events.schedules.next,
        NeitherStarts (3 * · + 2) 10 (configuredStart 9 10 20) [0, 1] b) := by
  obtain ⟨s₁, s₂, s, m, _, hadd, hset, hrun, hstop, htime, hinterrupted, _⟩ := interrupted_twoTriggers
  obtain ⟨n, hwait, _, _, _, hwaited⟩ := run_idle (m := ⟨s, []⟩) hinterrupted.represents [3]
  have hnine : n.events.clock.time = 9 := by
    rw [hwaited, htime]
    rfl
  have hfresh := run_add_transport n.events hadd
  refine ⟨s₁, s₂, s, _, m, n, hadd, hset, hrun, hstop, hwait, hfresh, ?_⟩
  rw [← hnine]
  exact run_restart_iff (by decide) (by decide) (by decide) hadd hset hrun hstop hwait hfresh
    (by decide) (by decide) (by rw [hnine]; decide) (by rw [hnine]; decide)

/-- The restart at 6 plays the second trigger at once, with the time 1. The new start plays the
first one at 8. -/
theorem restart_differs : ∃ (s₁ s₂ s f s' f' : Events Nat Unit Nat) (m n n' : Playback Nat Unit Nat)
    (span : Nat), Run Events.Step (Events.init 0 (3 * · + 2)) ([0, 1].map (.add ())) s₁ ∧
    Events.Step s₁ (.setPeriodicSchedule 0 10 0 ()) s₂ ∧ Run Ticks ⟨s₂, []⟩ [6] m ∧
    Events.Step m.events (.stop 0) s ∧
    Run Events.Step { s with schedules := (Events.init 0 (3 * · + 2) : Events Nat Unit Nat).schedules }
      ([0, 1].map (.add ())) f ∧
    Events.Step s (.setPeriodicSchedule 0 10 6 ()) s' ∧
      Events.Step f (.setPeriodicSchedule 0 10 6 ()) f' ∧
    Run Ticks ⟨s', []⟩ [span] n ∧ Run Ticks ⟨f', []⟩ [span] n' ∧
        n.events.pushes ≠ n'.events.pushes := by
  obtain ⟨s₁, s₂, s, m, x, hadd, hset, hrun, hstop, htime, hinterrupted, hentries, hbehind⟩ :=
    interrupted_twoTriggers
  have hlt : ∀ t ∈ x.entries, configuredStart s.clock.time 10 6 + 10 + (3 * t + 2) < 2 ^ 63 := by
    rw [hentries, htime]
    decide
  have hnot : ¬ NeitherStarts (3 * · + 2) 10 (configuredStart s.clock.time 10 6) x.entries 1 := by
    rw [hentries, htime]
    exact fun h => absurd (h.1 0 List.mem_cons_self) (by decide)
  obtain ⟨s', f', span, n, n', hset', hfset', _, htick, htick', hne⟩ :=
    hinterrupted.differs (b := 1) 0 (by decide) (by rw [htime]; decide) hlt (by rw [hbehind]; rfl) hnot
  exact ⟨s₁, s₂, s, _, s', f', m, n, n', span, hadd, hset, hrun, hstop, run_add_transport s hadd, hset',
    hfset', Run.start.next htick, Run.start.next htick', hne⟩

end Playback

end TaskingFramework
