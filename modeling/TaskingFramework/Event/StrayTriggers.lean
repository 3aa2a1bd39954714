import TaskingFramework.Event.PassPlayback

/-!
# Triggers outside the period

Nothing compares the offset of a trigger with the period. Once the schedule has started, a trigger
with an offset outside of the period is pushed as soon as its time in the first pass is over.
-/

set_option linter.unusedSectionVars false

namespace TaskingFramework

open Foundation

namespace Playback

open Clock Events

variable {ε π θ : Type} [DecidableEq ε] [DecidableEq π] [DecidableEq θ] {m : Playback ε π θ} {e : ε}
  {p : π} {offsetTime : θ → Nat} {period start now now₂ span : Nat} {x y : TimedPass θ}
  {l ts : List θ} {pushes : List (Nat × θ)}

/-- No trigger is pushed before its time in the first pass, and what is not pushed is left of this
pass. -/
structure Covered (offsetTime : θ → Nat) (ts : List θ) (start now : Nat) (x : TimedPass θ)
    (pushes : List (Nat × θ)) : Prop where
  entries : x.entries = ts
  base : (start : Int) ≤ x.base
  pushed : ∀ push ∈ pushes, push.2 ∈ ts ∧ start + offsetTime push.2 ≤ now
  covers : ∀ t ∈ ts, (∃ push ∈ pushes, push.2 = t) ∨ x.base = start ∧ t ∈ x.active :: x.behind

private theorem Covered.mono (h : Covered offsetTime ts start now x pushes) (hle : now ≤ now₂) :
    Covered offsetTime ts start now₂ x pushes :=
  ⟨h.entries, h.base, fun push hpush => ⟨(h.pushed push hpush).1, (h.pushed push hpush).2.trans hle⟩,
    h.covers⟩

private theorem Covered.moves (h : Covered offsetTime ts start now x pushes)
    (hmoves : TimedPass.Moves offsetTime period x l y) (hdue : x.due offsetTime ≤ now) :
    Covered offsetTime ts start now y (pushes ++ l.map fun t => (now, t)) := by
  have hbase := h.base
  refine ⟨hmoves.entries_eq.trans h.entries, hbase.trans hmoves.base_le, ?_, ?_⟩
  · intro push hpush
    rcases List.mem_append.mp hpush with hpush | hpush
    · exact h.pushed push hpush
    · obtain ⟨t, ht, rfl⟩ := List.mem_map.mp hpush
      obtain ⟨hmem, hoffset⟩ := hmoves.group ht
      rw [← h.entries]
      refine ⟨List.mem_append_right _ hmem, ?_⟩
      show start + offsetTime t ≤ now
      rw [TimedPass.due, ← hoffset] at hdue
      omega
  · intro t ht
    rcases h.covers t ht with ⟨push, hpush, heq⟩ | ⟨hfirst, hopen⟩
    · exact Or.inl ⟨push, List.mem_append_left _ hpush, heq⟩
    · rcases hmoves.rest hopen with hl | ⟨hsame, hleft⟩
      · exact Or.inl ⟨(now, t), List.mem_append_right _ (List.mem_map_of_mem hl), rfl⟩
      · exact Or.inr ⟨hsame.trans hfirst, hleft⟩

private theorem Covered.inside_iff (h : Covered offsetTime ts start now x pushes)
    (hahead : x.base = start → ∀ t ∈ x.active :: x.behind, period ≤ offsetTime t →
      now < start + offsetTime t) :
    (∀ push ∈ pushes, offsetTime push.2 < period) ↔
      ∀ t ∈ ts, period ≤ offsetTime t → now < start + offsetTime t := by
  constructor
  · intro hinside t ht hout
    rcases h.covers t ht with ⟨push, hpush, rfl⟩ | ⟨hfirst, hopen⟩
    · exact absurd (hinside push hpush) (Nat.not_lt_of_le hout)
    · exact hahead hfirst t hopen hout
  · intro hahead push hpush
    by_contra hout
    obtain ⟨ht, hle⟩ := h.pushed push hpush
    exact absurd (hahead push.2 ht (Nat.le_of_not_lt hout)) (Nat.not_lt_of_le hle)

variable {t₀ offset : Nat} {s₁ s₂ : Events ε π θ}

private theorem Loaded.strays_iff (h : Loaded t₀ offsetTime p ts s₁) (spans : List Nat)
    (hp : 0 < period) (hset : Events.Step s₁ (.setPeriodicSchedule e period offset p) s₂)
    (hlt : ∀ t ∈ ts, configuredStart t₀ period offset + offsetTime t < 2 ^ 63)
    (hlast : t₀ + spans.sum + period < 2 ^ 63) :
    ∃ m, Run Ticks ⟨s₂, []⟩ spans m ∧ ((∀ push ∈ m.events.pushes, offsetTime push.2 < period) ↔
      (∀ t ∈ ts, period ≤ configuredStart t₀ period offset + offsetTime t) ∨
        ∀ t ∈ ts, period ≤ offsetTime t →
          t₀ + spans.sum < configuredStart t₀ period offset + offsetTime t) := by
  by_cases hts : ts = []
  · subst hts
    obtain ⟨s, hstep, hclock, _, hpushes⟩ := start_empty h.represents h.triggers_nil e period offset
    obtain rfl := hset.unique hstep
    have hrep : s₂.clock.Represents [] := by
      rw [hclock]
      exact h.represents
    obtain ⟨m, hrun, _, hsame, _⟩ := run_idle (m := ⟨s₂, []⟩) hrep spans
    refine ⟨m, hrun, iff_of_true ?_ (Or.inl fun t ht => absurd ht List.not_mem_nil)⟩
    rw [hsame]
    show ∀ push ∈ s₂.pushes, _
    rw [hpushes, h.pushes_eq]
    exact fun push hpush => absurd hpush List.not_mem_nil
  obtain ⟨s, x, hstep, htime, hpushes, hperm, hbefore, hbase, hat, hx, hqueued⟩ :=
    h.startsAt (e := e) hts hp (by omega) hlt
  obtain rfl := hset.unique hstep
  generalize hstart : configuredStart t₀ period offset = start at hbase hlt ⊢
  have hle : t₀ ≤ start := by
    rw [← hstart]
    exact le_configuredStart hp (by omega)
  have hmem : ∀ t, t ∈ x.entries ↔ t ∈ ts := fun t => hperm.mem_iff
  have hactive : x.active ∈ ts := (hmem _).mp (List.mem_append_right _ List.mem_cons_self)
  have hfirst : ∀ t ∈ ts, offsetTime x.active ≤ offsetTime t := by
    intro t ht
    rw [← hmem, TimedPass.entries, hbefore] at ht
    exact TimedPass.active_le hat.lists.sorted ht
  have hdue : x.due offsetTime = start + offsetTime x.active := by
    rw [TimedPass.due, hbase]
  by_cases hin : x.due offsetTime < period
  · rw [if_pos hin] at hqueued
    have hcovered : Covered offsetTime x.entries start s₂.clock.time x s₂.pushes := by
      refine ⟨rfl, hbase.ge, ?_, fun t ht => ?_⟩
      · rw [hpushes]
        exact fun push hpush => absurd hpush List.not_mem_nil
      · rw [TimedPass.entries, hbefore] at ht
        exact Or.inr ⟨hbase, ht⟩
    obtain ⟨m, y, hrun, hplaying, _, hnow, hcovered', hahead⟩ :=
      run_playing (m := ⟨s₂, []⟩) (J := Covered offsetTime x.entries start)
        (fun _ _ _ _ hle h => h.mono hle) (fun _ _ _ _ _ hmoves hdue h => h.moves hmoves hdue)
        hqueued hx hp spans (by rw [htime]; exact hlast) hcovered
    have hnow' : m.events.clock.time = t₀ + spans.sum := by
      rw [hnow]
      exact congrArg (· + spans.sum) htime
    have hleft : y.base = start → ∀ t ∈ y.active :: y.behind, period ≤ offsetTime t →
        m.events.clock.time < start + offsetTime t := by
      intro hfirst t ht hout
      rcases hahead with ⟨rfl, rfl⟩ | hlater
      · show s₂.clock.time < start + offsetTime t
        omega
      · have hle := TimedPass.active_le hplaying.schedule.lists.sorted ht
        rw [TimedPass.due, hfirst] at hlater
        omega
    refine ⟨m, hrun, ?_⟩
    rw [hcovered'.inside_iff hleft, hnow']
    simp only [hmem]
    constructor
    · exact Or.inr
    · intro hor
      refine hor.resolve_left fun hout => ?_
      have hle := hout x.active hactive
      omega
  · rw [if_neg hin] at hqueued
    obtain ⟨m, hrun, _, hsame, _⟩ := run_idle (m := ⟨s₂, []⟩) hqueued spans
    refine ⟨m, hrun, iff_of_true ?_ (Or.inl fun t ht => ?_)⟩
    · rw [hsame]
      show ∀ push ∈ s₂.pushes, _
      rw [hpushes]
      exact fun push hpush => absurd hpush List.not_mem_nil
    · have hle := hfirst t ht
      omega

/-- No trigger outside the period is pushed exactly if the schedule does not start, or if no tick
reaches the time of such a trigger in the first pass. -/
theorem run_strays_iff (spans : List Nat) (hnodup : ts.Nodup) (hp : 0 < period)
    (hadd : Run Events.Step (Events.init t₀ offsetTime) (ts.map (.add p)) s₁)
    (hset : Events.Step s₁ (.setPeriodicSchedule e period offset p) s₂)
    (hlt : ∀ t ∈ ts, configuredStart t₀ period offset + offsetTime t < 2 ^ 63)
    (hlast : t₀ + spans.sum + period < 2 ^ 63) :
    ∃ m, Run Ticks ⟨s₂, []⟩ spans m ∧ ((∀ push ∈ m.events.pushes, offsetTime push.2 < period) ↔
      (∀ t ∈ ts, period ≤ configuredStart t₀ period offset + offsetTime t) ∨
        ∀ t ∈ ts, period ≤ offsetTime t →
          t₀ + spans.sum < configuredStart t₀ period offset + offsetTime t) :=
  (run_add hnodup hadd).strays_iff spans hp hset hlt hlast

private theorem set_stray : ∃ s₁ s₂ : Events Nat Unit Nat,
    Run Events.Step (Events.init 0 (12 * ·)) ([0, 1].map (.add ())) s₁ ∧
    Events.Step s₁ (.setPeriodicSchedule 0 10 0 ()) s₂ ∧ Loaded 0 (12 * ·) () [0, 1] s₁ := by
  obtain ⟨a₁, hadd₁, hloaded₁⟩ := (loaded_init : Loaded 0 (12 * ·) () []
    (Events.init 0 (12 * ·) : Events Nat Unit Nat)).add (t := 0) List.not_mem_nil
  obtain ⟨a₂, hadd₂, hloaded₂⟩ := hloaded₁.add (t := 1) (by decide)
  have hlt : ∀ t ∈ [0, 1], configuredStart 0 10 0 + 12 * t < 2 ^ 63 := by decide
  obtain ⟨s₂, _, hset, _⟩ := hloaded₂.startsAt (e := 0) (List.cons_ne_nil 0 [1]) (by decide)
    (by decide) hlt
  exact ⟨a₂, s₂, (Run.start.next hadd₁).next hadd₂, hset, hloaded₂⟩

theorem run_strays_iff_five : ∃ (s₁ s₂ : Events Nat Unit Nat) (m : Playback Nat Unit Nat),
    Run Events.Step (Events.init 0 (12 * ·)) ([0, 1].map (.add ())) s₁ ∧
    Events.Step s₁ (.setPeriodicSchedule 0 10 0 ()) s₂ ∧ Run Ticks ⟨s₂, []⟩ [2, 3] m ∧
    ((∀ push ∈ m.events.pushes, 12 * push.2 < 10) ↔
      (∀ t ∈ [0, 1], 10 ≤ configuredStart 0 10 0 + 12 * t) ∨
      ∀ t ∈ [0, 1], 10 ≤ 12 * t → 0 + [2, 3].sum < configuredStart 0 10 0 + 12 * t) := by
  obtain ⟨s₁, s₂, hadd, hset, _⟩ := set_stray
  obtain ⟨m, hrun, hiff⟩ := run_strays_iff [2, 3] (by decide) (by decide) hadd hset
    (by decide) (by decide)
  exact ⟨s₁, s₂, m, hadd, hset, hrun, hiff⟩

/-- The trigger at 12 is pushed. -/
theorem pushes_stray : ∃ (s₁ s₂ : Events Nat Unit Nat) (m : Playback Nat Unit Nat),
    Run Events.Step (Events.init 0 (12 * ·)) ([0, 1].map (.add ())) s₁ ∧
    Events.Step s₁ (.setPeriodicSchedule 0 10 0 ()) s₂ ∧ Run Ticks ⟨s₂, []⟩ [12] m ∧
    ∃ push ∈ m.events.pushes, 10 ≤ 12 * push.2 := by
  obtain ⟨s₁, s₂, hadd, hset, hloaded⟩ := set_stray
  obtain ⟨m, hrun, hiff⟩ := hloaded.strays_iff [12] (by decide) hset (by decide) (by decide)
  refine ⟨s₁, s₂, m, hadd, hset, hrun, ?_⟩
  by_contra hnone
  have hinside : ∀ push ∈ m.events.pushes, 12 * push.2 < 10 := by
    intro push hpush
    by_contra hout
    exact hnone ⟨push, hpush, Nat.le_of_not_lt hout⟩
  exact absurd (hiff.mp hinside) (by decide)

end Playback

end TaskingFramework
