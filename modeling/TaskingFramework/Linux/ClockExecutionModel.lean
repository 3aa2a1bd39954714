import TaskingFramework.Clock.Represents

/-!
# Linux clock

`ClockExecutionModel` counts milliseconds from a zero time on the real time clock of the system. The
system time that `clock_gettime` delivers is a parameter. `time_t` and `long` are 64 bits wide and
signed; `Time` is `uint64_t`, so that a mixed operation is done modulo 2 ^ 64 and converted back. The
overflow of a signed operation is undefined, and the results below stay inside the range.
-/

namespace TaskingFramework

/-- `struct timespec` -/
structure Timespec where
  tv_sec : Int
  tv_nsec : Int
  deriving DecidableEq, Repr

namespace Timespec

/-- What `pthread_cond_timedwait` requires. -/
def Valid (t : Timespec) : Prop := 0 ≤ t.tv_nsec ∧ t.tv_nsec < 1000000000

instance (t : Timespec) : Decidable t.Valid := inferInstanceAs (Decidable (_ ∧ _))

/-- The instant in nanoseconds. -/
def instant (t : Timespec) : Int := t.tv_sec * 1000000000 + t.tv_nsec

end Timespec

structure ClockExecutionModel where
  zeroTime : Timespec
  wakeUpTime : Timespec
  deriving DecidableEq, Repr

namespace ClockExecutionModel

/-- The signed expression of `getTime`, in which the quotient is rounded towards zero. -/
def elapsed (zeroTime now : Timespec) : Int :=
  (now.tv_sec - zeroTime.tv_sec) * 1000 + (now.tv_nsec - zeroTime.tv_nsec).tdiv 1000000

/-- `getTime` with the conversion to `Time`. -/
def getTime (s : ClockExecutionModel) (now : Timespec) : Nat :=
  (elapsed s.zeroTime now % 2 ^ 64).toNat

def setZeroTime (s : ClockExecutionModel) (now : Timespec) (offset : Nat) : ClockExecutionModel :=
  let tv_sec := toInt64 (now.tv_sec - (offset / 1000 : Nat))
  let tv_nsec := toInt64 (now.tv_nsec - (offset * 1000000 : Nat))
  let newZeroTime : Timespec :=
    if tv_nsec < 0 then ⟨tv_sec - 1, tv_nsec + 1000000000⟩ else ⟨tv_sec, tv_nsec⟩
  { s with zeroTime := newZeroTime }

def computeAbsoluteWakeUpTime (s : ClockExecutionModel) (now : Timespec) (timeSpan : Nat) :
    ClockExecutionModel :=
  let tv_sec := toInt64 (now.tv_sec + (timeSpan / 1000 : Nat))
  let tv_nsec := toInt64 (now.tv_nsec + (timeSpan % 1000 * 1000000 : Nat))
  let wakeUpTime : Timespec :=
    if tv_nsec > 1000000000 then ⟨tv_sec + 1, tv_nsec - 1000000000⟩ else ⟨tv_sec, tv_nsec⟩
  { s with wakeUpTime := wakeUpTime }

variable {s : ClockExecutionModel} {now : Timespec}

private theorem getTime_eq (hpos : 0 ≤ elapsed s.zeroTime now)
    (hrange : elapsed s.zeroTime now < 2 ^ 64) :
    (s.getTime now : Int) = elapsed s.zeroTime now := by
  rw [getTime, Int.emod_eq_of_lt hpos hrange, Int.toNat_of_nonneg hpos]

private theorem tdiv_million (x : Int) :
    x = 1000000 * x.tdiv 1000000 + x.tmod 1000000 ∧
      (0 ≤ x → 0 ≤ x.tmod 1000000 ∧ x.tmod 1000000 < 1000000) ∧
      (x ≤ 0 → x.tmod 1000000 ≤ 0 ∧ -1000000 < x.tmod 1000000) := by
  refine ⟨(Int.mul_tdiv_add_tmod x 1000000).symm, ?_, ?_⟩
  · intro hx
    exact ⟨Int.tmod_nonneg _ hx, Int.tmod_lt_of_pos _ (by decide)⟩
  · intro hx
    have hneg := Int.neg_tmod x 1000000
    have hlow := Int.tmod_nonneg 1000000 (show 0 ≤ -x by omega)
    have hhigh := Int.tmod_lt_of_pos (-x) (show (0 : Int) < 1000000 by decide)
    omega

private theorem setZeroTime_zeroTime (offset : Nat)
    (hsec : -2 ^ 63 ≤ now.tv_sec - (offset / 1000 : Nat))
    (hmax : now.tv_sec < 2 ^ 63) (hvalid : now.Valid)
    (hnsec : -2 ^ 63 ≤ now.tv_nsec - (offset * 1000000 : Nat)) :
    (s.setZeroTime now offset).zeroTime =
      if now.tv_nsec < offset * 1000000 then
        ⟨now.tv_sec - (offset / 1000 : Nat) - 1, now.tv_nsec - offset * 1000000 + 1000000000⟩
      else ⟨now.tv_sec - (offset / 1000 : Nat), now.tv_nsec - offset * 1000000⟩ := by
  obtain ⟨hlow, hhigh⟩ := hvalid
  have hns : toInt64 (now.tv_nsec - (offset * 1000000 : Nat)) = now.tv_nsec - offset * 1000000 := by
    rw [Clock.toInt64_of_lt hnsec (by omega)]
    omega
  simp only [setZeroTime, Clock.toInt64_of_lt hsec (by omega), hns]
  by_cases h : now.tv_nsec < offset * 1000000
  · rw [if_pos (by omega), if_pos h]
  · rw [if_neg (by omega), if_neg h]

private theorem setZeroTime_of_lt {offset : Nat} (hoffset : offset < 1000) (hsec : -2 ^ 63 < now.tv_sec)
    (hmax : now.tv_sec < 2 ^ 63) (hvalid : now.Valid) :
    (s.setZeroTime now offset).zeroTime.Valid ∧
      (s.setZeroTime now offset).zeroTime.instant = now.instant - offset * 1000000 ∧
      elapsed (s.setZeroTime now offset).zeroTime now = offset := by
  have hzero := setZeroTime_zeroTime (s := s) offset (by omega) hmax hvalid
    (by have := hvalid.1; omega)
  obtain ⟨hlow, hhigh⟩ := hvalid
  rw [hzero, show offset / 1000 = 0 by omega, elapsed]
  split
  next hborrow =>
    have hdiff : now.tv_nsec - (now.tv_nsec - offset * 1000000 + 1000000000) =
        1000000 * ((offset : Int) - 1000) := by omega
    refine ⟨⟨?_, ?_⟩, ?_, ?_⟩
    · simp only
      omega
    · simp only
      omega
    · simp only [Timespec.instant]
      omega
    · simp only [hdiff, Int.mul_tdiv_cancel_left _ (show (1000000 : Int) ≠ 0 by decide)]
      omega
  next hborrow =>
    have hdiff : now.tv_nsec - (now.tv_nsec - offset * 1000000) = 1000000 * (offset : Int) := by
      omega
    refine ⟨⟨?_, ?_⟩, ?_, ?_⟩
    · simp only
      omega
    · simp only
      omega
    · simp only [Timespec.instant]
      omega
    · simp only [hdiff, Int.mul_tdiv_cancel_left _ (show (1000000 : Int) ≠ 0 by decide)]
      omega

private theorem elapsed_later (zeroTime now : Timespec) (seconds : Nat) :
    elapsed zeroTime ⟨now.tv_sec + seconds, now.tv_nsec⟩ = elapsed zeroTime now + 1000 * seconds := by
  simp only [elapsed]
  omega

/-- The zero time is set right exactly for offsets below a second: the whole offset is taken from
the nanoseconds as well, whole seconds of it a second time. -/
theorem setZeroTime_iff (s : ClockExecutionModel) {now : Timespec} {offset : Nat}
    (hvalid : now.Valid) (hmax : now.tv_sec < 2 ^ 63)
    (hsec : -2 ^ 63 < now.tv_sec - (offset / 1000 : Nat))
    (hnsec : -2 ^ 63 ≤ now.tv_nsec - (offset * 1000000 : Nat)) :
    ((s.setZeroTime now offset).zeroTime.Valid ∧
      (s.setZeroTime now offset).zeroTime.instant = now.instant - offset * 1000000 ∧
      (s.setZeroTime now offset).getTime now = offset ∧
      ∀ seconds : Nat, now.tv_sec + seconds < 2 ^ 63 → offset + 1000 * seconds < 2 ^ 63 →
        (s.setZeroTime now offset).getTime ⟨now.tv_sec + seconds, now.tv_nsec⟩ =
          offset + 1000 * seconds) ↔
    offset < 1000 := by
  constructor
  · rintro ⟨-, hinstant, -, -⟩
    rw [setZeroTime_zeroTime offset (by omega) hmax hvalid hnsec] at hinstant
    split at hinstant <;> simp only [Timespec.instant] at hinstant <;> omega
  · intro hoffset
    obtain ⟨hzero, hinstant, helapsed⟩ :=
      setZeroTime_of_lt (s := s) hoffset (by omega) hmax hvalid
    have htime : ∀ seconds : Nat, offset + 1000 * seconds < 2 ^ 63 →
        (s.setZeroTime now offset).getTime ⟨now.tv_sec + seconds, now.tv_nsec⟩ =
          offset + 1000 * seconds := by
      intro seconds hrange
      have hlater := elapsed_later (s.setZeroTime now offset).zeroTime now seconds
      rw [helapsed] at hlater
      have hget : ((s.setZeroTime now offset).getTime ⟨now.tv_sec + seconds, now.tv_nsec⟩ : Int) = _ :=
        getTime_eq (by omega) (by omega)
      omega
    refine ⟨hzero, hinstant, ?_, fun seconds _ hrange => htime seconds hrange⟩
    have hnow := htime 0 (by omega)
    simpa using hnow

theorem setZeroTime_iff_borrow :
    (setZeroTime ⟨⟨0, 0⟩, ⟨0, 0⟩⟩ ⟨5, 200000000⟩ 300).zeroTime.Valid ∧
      (setZeroTime ⟨⟨0, 0⟩, ⟨0, 0⟩⟩ ⟨5, 200000000⟩ 300).getTime
        ⟨5, 200000000⟩ = 300 := by
  have h := (@setZeroTime_iff ⟨⟨0, 0⟩, ⟨0, 0⟩⟩ ⟨5, 200000000⟩ 300 (by decide)
    (by decide) (by decide) (by decide)).mpr (by decide)
  exact ⟨h.1, h.2.2.1⟩

/-- One second is taken twice. -/
theorem setZeroTime_second :
    (setZeroTime ⟨⟨0, 0⟩, ⟨0, 0⟩⟩ ⟨5, 0⟩ 1000).zeroTime = ⟨3, 0⟩ ∧
      Timespec.instant ⟨3, 0⟩ ≠ Timespec.instant ⟨5, 0⟩ - 1000 * 1000000 ∧
      (setZeroTime ⟨⟨0, 0⟩, ⟨0, 0⟩⟩ ⟨5, 0⟩ 1000).getTime ⟨5, 0⟩ = 2000 := by
  decide

/-- The part of a millisecond that `getTime` drops, with the sign of the difference of the
nanoseconds. -/
def dropped (zeroTime now : Timespec) : Int := (now.tv_nsec - zeroTime.tv_nsec).tmod 1000000

/-- The nanoseconds of the instant `nextStartTime` milliseconds behind the zero time, moved by the
dropped part, with up to one second more. -/
def wakeUpPhase (zeroTime now : Timespec) (nextStartTime : Nat) : Int :=
  zeroTime.tv_nsec + (nextStartTime % 1000 * 1000000 : Nat) + dropped zeroTime now

/-- The deadlines that are missed: a wake-up at a whole second, for which the carry is not taken; and
a time that was rounded up, when the time at the wake-up is rounded down. -/
def Missed (zeroTime now : Timespec) (nextStartTime : Nat) : Prop :=
  ((wakeUpPhase zeroTime now nextStartTime = 0 ∨
      wakeUpPhase zeroTime now nextStartTime = 1000000000) ∧ now.tv_nsec ≠ 0) ∨
  (dropped zeroTime now < 0 ∧ nextStartTime % 1000 ≠ 0 ∧
    wakeUpPhase zeroTime now nextStartTime < 1000000000)

instance (zeroTime now : Timespec) (nextStartTime : Nat) :
    Decidable (Missed zeroTime now nextStartTime) := inferInstanceAs (Decidable (_ ∨ _))

private theorem computeAbsoluteWakeUpTime_wakeUpTime (timeSpan : Nat) (hvalid : now.Valid)
    (hsec : -2 ^ 63 ≤ now.tv_sec) (hmax : now.tv_sec + (timeSpan / 1000 : Nat) < 2 ^ 63) :
    (s.computeAbsoluteWakeUpTime now timeSpan).wakeUpTime =
      if now.tv_nsec + (timeSpan % 1000 * 1000000 : Nat) > 1000000000 then
        ⟨now.tv_sec + (timeSpan / 1000 : Nat) + 1,
          now.tv_nsec + (timeSpan % 1000 * 1000000 : Nat) - 1000000000⟩
      else ⟨now.tv_sec + (timeSpan / 1000 : Nat), now.tv_nsec + (timeSpan % 1000 * 1000000 : Nat)⟩ := by
  obtain ⟨hlow, hhigh⟩ := hvalid
  simp only [computeAbsoluteWakeUpTime]
  rw [Clock.toInt64_of_lt (x := now.tv_sec + (timeSpan / 1000 : Nat)) (by omega) hmax,
    Clock.toInt64_of_lt (x := now.tv_nsec + (timeSpan % 1000 * 1000000 : Nat)) (by omega) (by omega)]

private theorem elapsed_nonneg {zeroTime : Timespec} (hzero : zeroTime.Valid) (hvalid : now.Valid)
    (hle : zeroTime.instant ≤ now.instant) : 0 ≤ elapsed zeroTime now := by
  obtain ⟨hsplit, hup, hdown⟩ := tdiv_million (now.tv_nsec - zeroTime.tv_nsec)
  obtain ⟨hz, hz'⟩ := hzero
  obtain ⟨ha, ha'⟩ := hvalid
  rw [Timespec.instant, Timespec.instant] at hle
  rw [elapsed]
  by_cases hn : zeroTime.tv_nsec ≤ now.tv_nsec
  · have := hup (by omega)
    omega
  · have := hdown (by omega)
    omega

private theorem wakeUpPhase_eq {zeroTime : Timespec} {nextStartTime timeSpan : Nat}
    (hspan : (nextStartTime : Int) = elapsed zeroTime now + timeSpan) :
    ∃ k : Int, now.tv_nsec + (timeSpan % 1000 * 1000000 : Nat) =
      wakeUpPhase zeroTime now nextStartTime + k * 1000000000 := by
  obtain ⟨hsplit, -, -⟩ := tdiv_million (now.tv_nsec - zeroTime.tv_nsec)
  have hmod : (nextStartTime : Int) % 1000 =
      ((now.tv_nsec - zeroTime.tv_nsec).tdiv 1000000 + timeSpan) % 1000 := by
    rw [hspan, elapsed]
    omega
  refine ⟨((now.tv_nsec - zeroTime.tv_nsec).tdiv 1000000 + (timeSpan % 1000 : Nat) -
    (nextStartTime % 1000 : Nat)) / 1000, ?_⟩
  rw [wakeUpPhase, dropped]
  omega

private theorem wakeUpPhase_bounds {zeroTime : Timespec} (hzero : zeroTime.Valid)
    (hvalid : now.Valid) (nextStartTime : Nat) :
    0 ≤ wakeUpPhase zeroTime now nextStartTime ∧
      wakeUpPhase zeroTime now nextStartTime < 2000000000 := by
  obtain ⟨hsplit, hup, hdown⟩ := tdiv_million (now.tv_nsec - zeroTime.tv_nsec)
  obtain ⟨hz, hz'⟩ := hzero
  obtain ⟨ha, ha'⟩ := hvalid
  rw [wakeUpPhase, dropped]
  by_cases hle : zeroTime.tv_nsec ≤ now.tv_nsec
  · have := hup (by omega)
    omega
  · have := hdown (by omega)
    omega

private theorem whole_second_iff {zeroTime : Timespec} {nextStartTime timeSpan : Nat}
    (hzero : zeroTime.Valid) (hvalid : now.Valid)
    (hspan : (nextStartTime : Int) = elapsed zeroTime now + timeSpan) :
    now.tv_nsec + (timeSpan % 1000 * 1000000 : Nat) = 1000000000 ↔
      (wakeUpPhase zeroTime now nextStartTime = 0 ∨
        wakeUpPhase zeroTime now nextStartTime = 1000000000) ∧ now.tv_nsec ≠ 0 := by
  obtain ⟨k, hk⟩ := wakeUpPhase_eq hspan
  obtain ⟨hlow, hhigh⟩ := wakeUpPhase_bounds hzero hvalid nextStartTime
  obtain ⟨ha, ha'⟩ := hvalid
  constructor
  · intro h
    omega
  · rintro ⟨hphase, hne⟩
    omega

private theorem elapsed_wakeUpTime {zeroTime wake : Timespec} {nextStartTime timeSpan : Nat}
    {carry : Int} (hspan : (nextStartTime : Int) = elapsed zeroTime now + timeSpan)
    (hsec : wake.tv_sec = now.tv_sec + (timeSpan / 1000 : Nat) + carry)
    (hnsec : wake.tv_nsec = now.tv_nsec + (timeSpan % 1000 * 1000000 : Nat) - carry * 1000000000) :
    elapsed zeroTime wake ≤ nextStartTime + 1 ∧ nextStartTime ≤ elapsed zeroTime wake + 1 ∧
      (nextStartTime ≤ elapsed zeroTime wake ↔
        ¬ (dropped zeroTime now < 0 ∧ zeroTime.tv_nsec ≤ wake.tv_nsec)) := by
  obtain ⟨hsplit, hup, hdown⟩ := tdiv_million (now.tv_nsec - zeroTime.tv_nsec)
  obtain ⟨hsplit', hup', hdown'⟩ := tdiv_million (wake.tv_nsec - zeroTime.tv_nsec)
  rw [elapsed] at hspan
  rw [elapsed, dropped]
  generalize (now.tv_nsec - zeroTime.tv_nsec).tdiv 1000000 = q at *
  generalize (now.tv_nsec - zeroTime.tv_nsec).tmod 1000000 = e at *
  generalize (wake.tv_nsec - zeroTime.tv_nsec).tdiv 1000000 = q' at *
  generalize (wake.tv_nsec - zeroTime.tv_nsec).tmod 1000000 = e' at *
  have hrest : 1000000 * q' + e' = 1000000 * (q + (timeSpan % 1000 : Nat) - 1000 * carry) + e := by
    omega
  have hread : (wake.tv_sec - zeroTime.tv_sec) * 1000 + q' =
      nextStartTime + (q' - (q + (timeSpan % 1000 : Nat) - 1000 * carry)) := by
    omega
  rw [hread]
  by_cases hw : zeroTime.tv_nsec ≤ wake.tv_nsec
  · have hfloor := hup' (by omega)
    by_cases hn : zeroTime.tv_nsec ≤ now.tv_nsec
    · have hfloor' := hup (by omega)
      omega
    · have hceil := hdown (by omega)
      omega
  · have hceil := hdown' (by omega)
    by_cases hn : zeroTime.tv_nsec ≤ now.tv_nsec
    · have hfloor := hup (by omega)
      omega
    · have hceil' := hdown (by omega)
      omega

private theorem elapsed_wakeUpTime_iff {zeroTime wake : Timespec} {nextStartTime timeSpan : Nat}
    (hzero : zeroTime.Valid) (hvalid : now.Valid)
    (hspan : (nextStartTime : Int) = elapsed zeroTime now + timeSpan)
    (hwake : wake = if now.tv_nsec + (timeSpan % 1000 * 1000000 : Nat) > 1000000000 then
        ⟨now.tv_sec + (timeSpan / 1000 : Nat) + 1,
          now.tv_nsec + (timeSpan % 1000 * 1000000 : Nat) - 1000000000⟩
      else ⟨now.tv_sec + (timeSpan / 1000 : Nat), now.tv_nsec + (timeSpan % 1000 * 1000000 : Nat)⟩)
    (hok : wake.Valid) :
    elapsed zeroTime wake ≤ nextStartTime + 1 ∧ nextStartTime ≤ elapsed zeroTime wake + 1 ∧
      (nextStartTime ≤ elapsed zeroTime wake ↔
        ¬ (dropped zeroTime now < 0 ∧ nextStartTime % 1000 ≠ 0 ∧
          wakeUpPhase zeroTime now nextStartTime < 1000000000)) := by
  obtain ⟨k, hk⟩ := wakeUpPhase_eq hspan
  obtain ⟨hlow, hhigh⟩ := wakeUpPhase_bounds hzero hvalid nextStartTime
  obtain ⟨-, hup, hdown⟩ := tdiv_million (now.tv_nsec - zeroTime.tv_nsec)
  obtain ⟨carry, hsec, hnsec⟩ : ∃ carry : Int,
      wake.tv_sec = now.tv_sec + (timeSpan / 1000 : Nat) + carry ∧
      wake.tv_nsec = now.tv_nsec + (timeSpan % 1000 * 1000000 : Nat) - carry * 1000000000 := by
    split at hwake
    next h => exact ⟨1, by rw [hwake], by rw [hwake, Int.one_mul]⟩
    next h => exact ⟨0, by rw [hwake, Int.add_zero], by rw [hwake, Int.zero_mul, Int.sub_zero]⟩
  obtain ⟨hmore, hless, hiff⟩ := elapsed_wakeUpTime hspan hsec hnsec
  refine ⟨hmore, hless, ?_⟩
  rw [hiff]
  obtain ⟨hw, hw'⟩ := hok
  obtain ⟨hz, hz'⟩ := hzero
  -- below one second the phase is the deadline, above it the carry takes one second off
  have hlate : dropped zeroTime now < 0 → (zeroTime.tv_nsec ≤ wake.tv_nsec ↔
      nextStartTime % 1000 ≠ 0 ∧ wakeUpPhase zeroTime now nextStartTime < 1000000000) := by
    intro hneg
    have hrest : -1000000 < dropped zeroTime now := by
      by_cases hn : zeroTime.tv_nsec ≤ now.tv_nsec
      · have := (hup (by omega)).1
        rw [dropped] at hneg
        omega
      · exact (hdown (by omega)).2
    have hphase : wakeUpPhase zeroTime now nextStartTime =
        zeroTime.tv_nsec + (nextStartTime % 1000 * 1000000 : Nat) + dropped zeroTime now := rfl
    omega
  constructor
  · rintro h ⟨hneg, hlater⟩
    exact h ⟨hneg, (hlate hneg).mpr hlater⟩
  · rintro h ⟨hneg, hle⟩
    exact h ⟨hneg, (hlate hneg).mp hle⟩

theorem computeAbsoluteWakeUpTime_iff (s : ClockExecutionModel) {now : Timespec}
    {nextStartTime : Nat} (hzero : s.zeroTime.Valid) (hvalid : now.Valid)
    (hle : s.zeroTime.instant ≤ now.instant) (hnext : s.getTime now < nextStartTime)
    (helapsed : elapsed s.zeroTime now < 2 ^ 63) (hrange : nextStartTime + 1 < 2 ^ 63)
    (hsec : -2 ^ 63 ≤ now.tv_sec)
    (hmax : now.tv_sec + ((nextStartTime - s.getTime now) / 1000 : Nat) < 2 ^ 63) :
    ((s.computeAbsoluteWakeUpTime now (nextStartTime - s.getTime now)).wakeUpTime.Valid ∧
      nextStartTime ≤ (s.computeAbsoluteWakeUpTime now (nextStartTime - s.getTime now)).getTime
        (s.computeAbsoluteWakeUpTime now (nextStartTime - s.getTime now)).wakeUpTime) ↔
    ¬ Missed s.zeroTime now nextStartTime := by
  have hget := getTime_eq (elapsed_nonneg hzero hvalid hle) (by omega)
  have hspan : (nextStartTime : Int) =
      elapsed s.zeroTime now + (nextStartTime - s.getTime now : Nat) := by omega
  have hstart : 0 < nextStartTime := by omega
  generalize nextStartTime - s.getTime now = timeSpan at *
  have hwhole := whole_second_iff hzero hvalid hspan
  have hwake := computeAbsoluteWakeUpTime_wakeUpTime (s := s) timeSpan hvalid hsec hmax
  by_cases hcarry : now.tv_nsec + (timeSpan % 1000 * 1000000 : Nat) = 1000000000
  · -- the nanoseconds of the deadline are a whole second
    constructor
    · rintro ⟨hok, -⟩
      rw [hwake, if_neg (by omega)] at hok
      have := hok.2
      simp only at this
      omega
    · intro hkept
      exact absurd (Or.inl (hwhole.mp hcarry)) hkept
  · have hvalidWake : (s.computeAbsoluteWakeUpTime now timeSpan).wakeUpTime.Valid := by
      obtain ⟨ha, ha'⟩ := hvalid
      rw [hwake]
      split <;> constructor <;> simp only <;> omega
    obtain ⟨hmore, hless, hiff⟩ := elapsed_wakeUpTime_iff hzero hvalid hspan hwake hvalidWake
    have hread : ((s.computeAbsoluteWakeUpTime now timeSpan).getTime
        (s.computeAbsoluteWakeUpTime now timeSpan).wakeUpTime : Int) = _ := getTime_eq
      (show 0 ≤ elapsed s.zeroTime _ by omega) (show elapsed s.zeroTime _ < 2 ^ 64 by omega)
    have hzeroTime : (s.computeAbsoluteWakeUpTime now timeSpan).zeroTime = s.zeroTime := rfl
    rw [hzeroTime] at hread
    rw [Missed, ← hwhole, not_or]
    constructor
    · rintro ⟨-, htime⟩
      exact ⟨hcarry, hiff.mp (by omega)⟩
    · rintro ⟨-, hkept⟩
      have := hiff.mpr hkept
      exact ⟨hvalidWake, by omega⟩

theorem computeAbsoluteWakeUpTime_iff_carry :
    (computeAbsoluteWakeUpTime ⟨⟨5, 0⟩, ⟨0, 0⟩⟩ ⟨6, 500000000⟩ 700).wakeUpTime.Valid ∧
      2200 ≤ (computeAbsoluteWakeUpTime ⟨⟨5, 0⟩, ⟨0, 0⟩⟩ ⟨6, 500000000⟩ 700).getTime
        ⟨7, 200000000⟩ :=
  (@computeAbsoluteWakeUpTime_iff ⟨⟨5, 0⟩, ⟨0, 0⟩⟩ ⟨6, 500000000⟩ 2200 (by decide) (by decide)
    (by decide) (by decide) (by decide) (by decide) (by decide) (by decide)).mpr (by decide)

/-- At half a second of the system time, half a second later; and a rounding up at the sleep that is
not repeated at the wake-up. -/
theorem wakeUpTime_missed :
    ¬ (computeAbsoluteWakeUpTime ⟨⟨5, 0⟩, ⟨0, 0⟩⟩ ⟨6, 500000000⟩
        (2000 - 1500)).wakeUpTime.Valid ∧
      (getTime ⟨⟨5, 0⟩, ⟨0, 0⟩⟩ ⟨6, 500000000⟩ = 1500) ∧
      (computeAbsoluteWakeUpTime ⟨⟨5, 500000⟩, ⟨0, 0⟩⟩ ⟨6, 0⟩
        (1001 - 1000)).wakeUpTime = ⟨6, 1000000⟩ ∧
      getTime ⟨⟨5, 500000⟩, ⟨0, 0⟩⟩ ⟨6, 0⟩ = 1000 ∧
      getTime ⟨⟨5, 500000⟩, ⟨0, 0⟩⟩ ⟨6, 1000000⟩ = 1000 := by
  decide

end ClockExecutionModel

end TaskingFramework
